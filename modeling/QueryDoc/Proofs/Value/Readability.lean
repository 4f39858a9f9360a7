import QueryDoc.Proofs.Binary64.Reading
import QueryDoc.Proofs.Grammar.Completeness
import QueryDoc.Proofs.Value.Tokens

/-!
# QueryDoc.Proofs.Value.Readability

Literals stand for one value only. A literal is read in steps that undo how it was written: its
tokens are found (`Value.tokens_text`), each token is read as a terminal (`terminal?_token`),
the terminals are parsed as a value of the grammar (`Grammar.Parser.value_complete`), and that is
taken for the value that it is the counterpart of (`Value.ofMeaning_meaning`). What is read is
the value that was written (`Value.readText?_text`), so different values have different literals
(`Value.text_injective`).

An infinite float is written like null, and an enumeration's value may be written like a boolean
or like null: such values are left out.
-/

namespace QueryDoc

open Grammar (Terminal isInner)

/-! ## Reading terminals -/

/-- The terminal that a token is read as. The characters of a string stand for themselves. -/
def Source.Token.terminal? (t : Source.Token) : Option Terminal :=
  match t.kind with
  | .punctuator mark => some (.mark mark)
  | .spread => some .spread
  | .name => some (.name (String.ofList t.text))
  | .int => (Grammar.readInt? t.text).map .int
  | .float => (Decimal.read? t.text).map fun d => .float (Binary64.ofDecimal d)
  | .string => some (.string (String.ofList (Grammar.inner 1 t.text)))
  | .unknown => none

/-- Whether a terminal is no infinite float. -/
def Grammar.Terminal.IsFinite : Terminal → Prop
  | .float x => x.isFinite = true
  | _ => True

theorem terminal?_token {u : Terminal} (h : u.IsFinite) : u.token.terminal? = some u := by
  cases u with
  | mark c => rfl
  | spread => rfl
  | name s =>
    simp [Source.Token.terminal?, Terminal.token, Terminal.kind, Terminal.spelling]
  | int n =>
    simp [Source.Token.terminal?, Terminal.token, Terminal.kind, Terminal.spelling,
      Grammar.readInt?_intText]
  | float x =>
    have hread := congrArg (Option.map Terminal.float) (Binary64.read?_pointed_shortText h)
    rwa [Option.map_map] at hread
  | string s =>
    simp [Source.Token.terminal?, Terminal.token, Terminal.kind, Terminal.spelling, Grammar.inner]

theorem mapM_terminal?_token {us : List Terminal} (h : ∀ u ∈ us, u.IsFinite) :
    (us.map Terminal.token).mapM Source.Token.terminal? = some us := by
  induction us with
  | nil => rfl
  | cons u us ih =>
    obtain ⟨hu, hus⟩ := List.forall_mem_cons.mp h
    rw [List.map_cons, List.mapM_cons, terminal?_token hu, ih hus]
    rfl

mutual

/-- Floats that are not finite have no counterpart of their own. -/
theorem Value.isFinite_of_mem_terminals (v : Value) :
    ∀ u ∈ v.meaning.terminals, u.IsFinite := by
  cases v with
  | float x =>
    rw [Value.meaning]
    split
    · next hx => exact List.forall_mem_singleton.mpr hx
    · exact List.forall_mem_singleton.mpr trivial
  | list items =>
    exact List.forall_mem_cons.mpr ⟨trivial, List.forall_mem_append.mpr
      ⟨isFinite_of_mem_itemTerminals items, List.forall_mem_singleton.mpr trivial⟩⟩
  | object fields =>
    exact List.forall_mem_cons.mpr ⟨trivial, List.forall_mem_append.mpr
      ⟨isFinite_of_mem_fieldTerminals fields.entries, List.forall_mem_singleton.mpr trivial⟩⟩
  | reference v =>
    exact List.forall_mem_cons.mpr ⟨trivial, List.forall_mem_singleton.mpr trivial⟩
  | _ => exact List.forall_mem_singleton.mpr trivial

theorem isFinite_of_mem_itemTerminals (vs : List Value) :
    ∀ u ∈ Grammar.itemTerminals (itemMeanings vs), u.IsFinite := by
  cases vs with
  | nil => exact List.forall_mem_nil _
  | cons v vs =>
    exact List.forall_mem_append.mpr
      ⟨v.isFinite_of_mem_terminals, isFinite_of_mem_itemTerminals vs⟩

theorem isFinite_of_mem_fieldTerminals (fields : List (String × Value)) :
    ∀ u ∈ Grammar.fieldTerminals (fieldMeanings fields), u.IsFinite := by
  cases fields with
  | nil => exact List.forall_mem_nil _
  | cons f fields =>
    exact List.forall_mem_cons.mpr ⟨trivial, List.forall_mem_cons.mpr ⟨trivial,
      List.forall_mem_append.mpr
        ⟨f.2.isFinite_of_mem_terminals, isFinite_of_mem_fieldTerminals fields⟩⟩⟩

end

/-! ## Values of the grammar as values -/

mutual

/-- The value that a value of the grammar is the counterpart of. -/
def Value.ofMeaning : Grammar.Value → Value
  | .name s =>
    if s = "true" then .bool true
    else if s = "false" then .bool false
    else if s = "null" then .null
    else .enum s
  | .int n => .int n
  | .float x => .float x
  | .string s => .string s
  | .reference s => .reference ⟨s⟩
  | .list items => .list (itemsOfMeanings items)
  | .object fields => .object ⟨fieldsOfMeanings fields⟩

def itemsOfMeanings : List Grammar.Value → List Value
  | [] => []
  | v :: vs => Value.ofMeaning v :: itemsOfMeanings vs

def fieldsOfMeanings : List (String × Grammar.Value) → List (String × Value)
  | [] => []
  | (key, v) :: fields => (key, Value.ofMeaning v) :: fieldsOfMeanings fields

end

/-- Whether no value of another kind has the same counterpart: a float is finite, and an
enumeration's value is no boolean and not null. -/
def Value.IsDistinctive : Value → Prop
  | .float x => x.isFinite = true
  | .enum name => name ≠ "true" ∧ name ≠ "false" ∧ name ≠ "null"
  | _ => True

mutual

theorem Value.ofMeaning_meaning (v : Value) (h : v.Everywhere Value.IsDistinctive) :
    Value.ofMeaning v.meaning = v := by
  cases v with
  | bool b => cases b <;> rfl
  | enum name =>
    obtain ⟨htrue, hfalse, hnull⟩ := h
    rw [Value.meaning, Value.ofMeaning, if_neg htrue, if_neg hfalse, if_neg hnull]
  | float x =>
    have hx : x.isFinite = true := h
    rw [Value.meaning, if_pos hx, Value.ofMeaning]
  | list items =>
    rw [Value.meaning, Value.ofMeaning, itemsOfMeanings_itemMeanings items h.2]
  | object fields =>
    rw [Value.meaning, Value.ofMeaning, fieldsOfMeanings_fieldMeanings fields.entries h.2]
  | _ => rfl

theorem itemsOfMeanings_itemMeanings (vs : List Value)
    (h : itemsEverywhere Value.IsDistinctive vs) : itemsOfMeanings (itemMeanings vs) = vs := by
  cases vs with
  | nil => rfl
  | cons v vs =>
    rw [itemMeanings, itemsOfMeanings, v.ofMeaning_meaning h.1,
      itemsOfMeanings_itemMeanings vs h.2]

theorem fieldsOfMeanings_fieldMeanings (fields : List (String × Value))
    (h : fieldsEverywhere Value.IsDistinctive fields) :
    fieldsOfMeanings (fieldMeanings fields) = fields := by
  cases fields with
  | nil => rfl
  | cons f fields =>
    obtain ⟨key, v⟩ := f
    rw [fieldMeanings, fieldsOfMeanings, v.ofMeaning_meaning h.1,
      fieldsOfMeanings_fieldMeanings fields h.2]

end

/-! ## Reading literals -/

/-- A value whose literal can be read: its words are names, its strings hold no quote,
backslash or line end, its floats are finite, and the values of enumerations in it are no
booleans and not null. -/
structure Value.IsReadable (v : Value) : Prop where
  spellable : v.Spellable isInner
  distinctive : v.Everywhere Value.IsDistinctive

/-- The value that a text is the literal of. -/
def Value.readText? (text : String) : Option Value :=
  ((Source.tokens text.toList).mapM Source.Token.terminal?).bind fun us =>
    match Grammar.Parser.value false (Grammar.Parser.room us) us with
    | .ok (v, []) => some (Value.ofMeaning v)
    | _ => none

/-- A literal is read as the value that it was written for. -/
theorem Value.readText?_text {v : Value} (h : v.IsReadable) : Value.readText? v.text = some v := by
  have hparse := Grammar.Parser.value_room false v.meaning nofun []
  rw [List.append_nil] at hparse
  rw [Value.readText?, Value.tokens_text h.spellable, ← v.map_token_terminals,
    mapM_terminal?_token v.isFinite_of_mem_terminals, Option.bind_some, hparse]
  exact congrArg some (v.ofMeaning_meaning h.distinctive)

/-- **Readability**: readable values with the same literal are the same value, with the same
kinds at every place, the same order of items and keys, and the same bits of every float. -/
theorem Value.text_injective {v w : Value} (hv : v.IsReadable) (hw : w.IsReadable)
    (h : v.text = w.text) : v = w := by
  have hread := Value.readText?_text hv
  rw [h, Value.readText?_text hw] at hread
  exact (Option.some.inj hread).symm

/-- An object in which a field has been written twice. -/
def rewrittenObject : Value :=
  .ofFields [("at", .null), ("of", .list [.string "at: 1.0", .enum "at", .reference ⟨"at"⟩]),
    ("at", .float ⟨0x3FF0000000000000⟩)]

/-- The same fields, each of them written once. -/
def orderedObject : Value :=
  .object ⟨[("at", .float ⟨0x3FF0000000000000⟩),
    ("of", .list [.string "at: 1.0", .enum "at", .reference ⟨"at"⟩])]⟩

theorem isReadable_orderedObject : orderedObject.IsReadable where
  spellable :=
    ⟨rfl, trivial, rfl, ⟨List.all_eq_true.mp (by decide), rfl, rfl, trivial⟩, trivial⟩
  distinctive :=
    ⟨trivial, rfl, ⟨trivial, trivial, ⟨by decide, by decide, by decide⟩, trivial, trivial⟩,
      trivial⟩

theorem isReadable_rewrittenObject : rewrittenObject.IsReadable where
  spellable :=
    ⟨rfl, trivial, rfl, ⟨List.all_eq_true.mp (by decide), rfl, rfl, trivial⟩, trivial⟩
  distinctive :=
    ⟨trivial, rfl, ⟨trivial, trivial, ⟨by decide, by decide, by decide⟩, trivial, trivial⟩,
      trivial⟩

theorem eq_of_text_rewrittenObject : rewrittenObject.IsReadable ∧ orderedObject.IsReadable ∧
    rewrittenObject.text = orderedObject.text ∧ rewrittenObject = orderedObject := by
  have htext : rewrittenObject.text = orderedObject.text := by decide +kernel
  exact ⟨isReadable_rewrittenObject, isReadable_orderedObject, htext,
    Value.text_injective isReadable_rewrittenObject isReadable_orderedObject htext⟩

end QueryDoc
