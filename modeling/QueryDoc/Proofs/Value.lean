import QueryDoc.Proofs.Grammar.Joining
import QueryDoc.Proofs.Grammar.Strings
import QueryDoc.Proofs.Source.Layout
import QueryDoc.Value

/-!
# QueryDoc.Proofs.Value

The literals that values are written as. Every value has its counterpart in the grammar
(`Value.meaning`), and its literal is written in the pieces of that, if what the caller passed
in as a word is one and no string ends early (`Value.laid_text`).

An object is written as masking lays it out, whatever it holds (`Value.isItem_text`).
-/

namespace QueryDoc

open Grammar (Laid Terminal Verbatim WrittenAs isInner)
open Source (IsItem)

/-! ## Words and strings -/

section Spellable

variable (inner : Char → Bool)

mutual

/-- A value whose words are names and whose strings consist of these characters. -/
def Value.Spellable : Value → Prop
  | .enum name => isName name.toList = true
  | .list items => itemsSpellable items
  | .object ⟨fields⟩ => fieldsSpellable fields
  | .string s => ∀ c ∈ s.toList, inner c = true
  | .reference v => isName v.name.toList = true
  | _ => True

/-- Whether all items are spellable. -/
def itemsSpellable : List Value → Prop
  | [] => True
  | v :: vs => v.Spellable ∧ itemsSpellable vs

/-- Whether all keys are names and all values are spellable. -/
def fieldsSpellable : List (String × Value) → Prop
  | [] => True
  | (key, v) :: fields => isName key.toList = true ∧ v.Spellable ∧ fieldsSpellable fields

end

end Spellable

/-! ## Conditions on all values in a value -/

section Everywhere

variable (p : Value → Prop)

mutual

/-- Whether a condition holds of a value and of all values in it. -/
def Value.Everywhere : Value → Prop
  | .list items => p (.list items) ∧ itemsEverywhere items
  | .object ⟨fields⟩ => p (.object ⟨fields⟩) ∧ fieldsEverywhere fields
  | v => p v

def itemsEverywhere : List Value → Prop
  | [] => True
  | v :: vs => v.Everywhere ∧ itemsEverywhere vs

def fieldsEverywhere : List (String × Value) → Prop
  | [] => True
  | (_, v) :: fields => v.Everywhere ∧ fieldsEverywhere fields

end

end Everywhere

/-! ## Counterparts in the grammar -/

mutual

/-- The value of the grammar that is written for a value. -/
def Value.meaning : Value → Grammar.Value
  | .bool b => .name (if b then "true" else "false")
  | .enum name => .name name
  | .float x => if x.isFinite then .float x else .name "null"
  | .int n => .int n
  | .list items => .list (itemMeanings items)
  | .null => .name "null"
  | .object ⟨fields⟩ => .object (fieldMeanings fields)
  | .string s => .string s
  | .reference v => .reference v.name

/-- The counterparts of items, in order. -/
def itemMeanings : List Value → List Grammar.Value
  | [] => []
  | v :: vs => v.meaning :: itemMeanings vs

/-- The counterparts of fields, under their keys and in order. -/
def fieldMeanings : List (String × Value) → List (String × Grammar.Value)
  | [] => []
  | (key, v) :: fields => (key, v.meaning) :: fieldMeanings fields

end

/-- Each item is written by itself. -/
theorem itemTexts_eq_map (vs : List Value) : Value.itemTexts vs = vs.map Value.text := by
  induction vs with
  | nil => rfl
  | cons v vs ih => rw [Value.itemTexts, ih, List.map_cons]

/-- Each field is written behind its key. -/
theorem fieldTexts_eq_map (fields : List (String × Value)) :
    Value.fieldTexts fields = fields.map fun f => f.1 ++ ": " ++ f.2.text := by
  induction fields with
  | nil => rfl
  | cons f fields ih => rw [Value.fieldTexts, ih, List.map_cons]

/-- The terminals of items are those of their counterparts, in order. -/
theorem itemTerminals_itemMeanings (vs : List Value) :
    Grammar.itemTerminals (itemMeanings vs) = vs.flatMap fun v => v.meaning.terminals := by
  induction vs with
  | nil => rfl
  | cons v vs ih => rw [itemMeanings, Grammar.itemTerminals, ih, List.flatMap_cons]

/-- The terminals of a field are its key, a colon and those of its value's counterpart. -/
theorem fieldTerminals_fieldMeanings (fields : List (String × Value)) :
    Grammar.fieldTerminals (fieldMeanings fields) =
      fields.flatMap fun f => .name f.1 :: .mark ':' :: f.2.meaning.terminals := by
  induction fields with
  | nil => rfl
  | cons f fields ih =>
    rw [fieldMeanings, Grammar.fieldTerminals, ih, List.flatMap_cons, List.cons_append,
      List.cons_append]

/-- The pieces of items are those of their counterparts, in order. -/
theorem itemPieces_itemMeanings (vs : List Value) :
    Grammar.itemPieces (itemMeanings vs) = vs.flatMap fun v => v.meaning.pieces := by
  induction vs with
  | nil => rfl
  | cons v vs ih => rw [itemMeanings, Grammar.itemPieces, ih, List.flatMap_cons]

/-! ## Layout -/

mutual

/-- The tokens of a value are laid out as its literal. -/
theorem Value.isItem_text (v : Value) :
    IsItem (v.meaning.terminals.map Terminal.token) v.text.toList := by
  cases v with
  | bool b => cases b <;> exact Source.isItem_one rfl rfl
  | enum name => exact Source.isItem_one rfl rfl
  | float x =>
    rw [Value.text, Value.floatText, Value.meaning]
    split
    · rw [String.toList_ofList]
      exact Source.isItem_one (t := (Terminal.float x).token) rfl rfl
    · exact Source.isItem_one rfl rfl
  | int n =>
    rw [Value.text, Value.intText, String.toList_ofList]
    exact Source.isItem_one (t := (Terminal.int n).token) rfl rfl
  | list items =>
    have hitems := Source.isItem_brackets (o := '[') (c := ']') rfl rfl rfl rfl (isItem_items items)
    rw [Value.text, Value.meaning, Grammar.Value.terminals, itemTexts_eq_map,
      itemTerminals_itemMeanings]
    simpa [List.map_flatMap, Terminal.token, Terminal.kind, Terminal.spelling] using hitems
  | null => exact Source.isItem_one rfl rfl
  | object fields =>
    obtain ⟨fields⟩ := fields
    have hfields := Source.isItem_brackets (o := '\x7b') (c := '\x7d') rfl rfl rfl rfl
      (isItem_fields fields)
    rw [Value.text, Value.meaning, Grammar.Value.terminals, fieldTexts_eq_map,
      fieldTerminals_fieldMeanings]
    simpa [List.map_flatMap, Terminal.token, Terminal.kind, Terminal.spelling] using hfields
  | string s =>
    rw [Value.text, String.toList_append, String.toList_append]
    exact Source.isItem_one (t := (Terminal.string s).token) rfl rfl
  | reference v =>
    rw [Value.text, VariableRef.text, String.toList_append]
    exact Source.isItem_reference v.name.toList

/-- Items are laid out one by one, which is how the text of a list is made. -/
theorem isItem_items (vs : List Value) :
    ∀ v ∈ vs, IsItem (v.meaning.terminals.map Terminal.token) v.text.toList := by
  cases vs with
  | nil => exact List.forall_mem_nil _
  | cons v vs => exact List.forall_mem_cons.mpr ⟨v.isItem_text, isItem_items vs⟩

/-- Fields are laid out one by one, each with a blank behind its colon. -/
theorem isItem_fields (fields : List (String × Value)) :
    ∀ f ∈ fields, IsItem
      ((Terminal.name f.1 :: .mark ':' :: f.2.meaning.terminals).map Terminal.token)
      (f.1 ++ ": " ++ f.2.text).toList := by
  cases fields with
  | nil => exact List.forall_mem_nil _
  | cons f fields =>
    obtain ⟨key, v⟩ := f
    have hkeyed := v.isItem_text.keyed key.toList
    refine List.forall_mem_cons.mpr ⟨?_, isItem_fields fields⟩
    simpa [Terminal.token, Terminal.kind, Terminal.spelling] using hkeyed

end

/-! ## Literals as texts of the grammar -/

section Spelling

variable {inner : Char → Bool}

/-- A name is written as it is. -/
theorem writtenAs_name {s : String} (h : isName s.toList = true) :
    WrittenAs (Verbatim inner) (Terminal.name s).token (.name s) :=
  Grammar.writtenAs_token (u := .name s) h nofun

/-- A mark is written as it is. -/
theorem writtenAs_mark {c : Char} (h : isMark c = true) :
    WrittenAs (Verbatim inner) (Terminal.mark c).token (.mark c) :=
  Grammar.writtenAs_token (u := .mark c) h nofun

/-- A string whose characters end no string is one token between its quotes. -/
theorem writtenAs_string (hinner : ∀ c, inner c = true → isInner c = true)
    {s : String} (h : ∀ c ∈ s.toList, inner c = true) :
    WrittenAs (Verbatim inner) (Terminal.string s).token (.string s) := by
  have hs : ∀ c ∈ s.toList, isInner c = true := fun c hc => hinner c (h c hc)
  have hsolid := (Grammar.isExact_verbatim hs).isSolid (Grammar.not_hasBareReturn_verbatim hs)
  exact ⟨hsolid, rfl, h, rfl⟩

mutual

/-- The tokens of a literal are found wherever it stands. -/
theorem Value.writtenAs_meaning (hinner : ∀ c, inner c = true → isInner c = true)
    (v : Value) (h : v.Spellable inner) :
    ∀ u ∈ v.meaning.terminals, WrittenAs (Verbatim inner) u.token u := by
  cases v with
  | bool b => cases b <;> exact List.forall_mem_singleton.mpr (writtenAs_name rfl)
  | enum name => exact List.forall_mem_singleton.mpr (writtenAs_name h)
  | float x =>
    rw [Value.meaning]
    split
    · exact List.forall_mem_singleton.mpr (Grammar.writtenAs_token (u := .float x) trivial nofun)
    · exact List.forall_mem_singleton.mpr (writtenAs_name rfl)
  | int n =>
    exact List.forall_mem_singleton.mpr (Grammar.writtenAs_token (u := .int n) trivial nofun)
  | list items =>
    have hitems := writtenAs_items hinner items h
    rw [Value.meaning, Grammar.Value.terminals, itemTerminals_itemMeanings]
    exact List.forall_mem_cons.mpr ⟨writtenAs_mark rfl, List.forall_mem_append.mpr
      ⟨List.forall_mem_flatMap.mpr hitems, List.forall_mem_singleton.mpr (writtenAs_mark rfl)⟩⟩
  | null => exact List.forall_mem_singleton.mpr (writtenAs_name rfl)
  | object fields =>
    obtain ⟨fields⟩ := fields
    have hfields := writtenAs_fields hinner fields h
    rw [Value.meaning, Grammar.Value.terminals, fieldTerminals_fieldMeanings]
    exact List.forall_mem_cons.mpr ⟨writtenAs_mark rfl, List.forall_mem_append.mpr
      ⟨List.forall_mem_flatMap.mpr hfields, List.forall_mem_singleton.mpr (writtenAs_mark rfl)⟩⟩
  | string s => exact List.forall_mem_singleton.mpr (writtenAs_string hinner h)
  | reference v =>
    exact List.forall_mem_cons.mpr
      ⟨writtenAs_mark rfl, List.forall_mem_singleton.mpr (writtenAs_name h)⟩

/-- The tokens of all items are found wherever they stand. -/
theorem writtenAs_items (hinner : ∀ c, inner c = true → isInner c = true)
    (vs : List Value) (h : itemsSpellable inner vs) :
    ∀ v ∈ vs, ∀ u ∈ v.meaning.terminals, WrittenAs (Verbatim inner) u.token u := by
  cases vs with
  | nil => exact List.forall_mem_nil _
  | cons v vs =>
    exact List.forall_mem_cons.mpr ⟨v.writtenAs_meaning hinner h.1, writtenAs_items hinner vs h.2⟩

/-- The tokens of all fields are found wherever they stand, the keys included. -/
theorem writtenAs_fields (hinner : ∀ c, inner c = true → isInner c = true)
    (fields : List (String × Value)) (h : fieldsSpellable inner fields) :
    ∀ f ∈ fields, ∀ u ∈ Terminal.name f.1 :: .mark ':' :: f.2.meaning.terminals,
      WrittenAs (Verbatim inner) u.token u := by
  cases fields with
  | nil => exact List.forall_mem_nil _
  | cons f fields =>
    have hvalue := f.2.writtenAs_meaning hinner h.2.1
    exact List.forall_mem_cons.mpr ⟨List.forall_mem_cons.mpr ⟨writtenAs_name h.1,
      List.forall_mem_cons.mpr ⟨writtenAs_mark rfl, hvalue⟩⟩, writtenAs_fields hinner fields h.2.2⟩

end

/-- A literal that is held back. -/
theorem Value.laid_of_isHeld (hinner : ∀ c, inner c = true → isInner c = true)
    {v : Value} (h : v.Spellable inner) (hv : v.meaning.IsHeld) :
    Laid (Verbatim inner) v.text.toList [.held v.meaning.terminals] := by
  have hwritten := v.writtenAs_meaning hinner h
  have hrun : Grammar.IsLiteral (v.meaning.terminals.map Terminal.token) := by
    refine Grammar.isLiteral_of_isHeld hv ?_
      (List.forall_mem_map.mpr fun u hu => (hwritten u hu).solid)
    rw [List.forall₂_map_left_iff, List.forall₂_same]
    exact fun _ _ => rfl
  rw [← v.isItem_text.layOut]
  exact .held hrun (List.forall₂_map_left_iff.mpr (List.forall₂_same.mpr hwritten))

mutual

/-- **Literals**: a value is written in the pieces of its counterpart in the grammar. -/
theorem Value.laid_text (hinner : ∀ c, inner c = true → isInner c = true)
    (v : Value) (h : v.Spellable inner) :
    Laid (Verbatim inner) v.text.toList v.meaning.pieces := by
  cases v with
  | bool b => cases b <;> exact .word rfl
  | enum name => exact .word h
  | float x =>
    have hheld := Value.laid_of_isHeld hinner (v := .float x) trivial
    rw [Value.meaning] at hheld ⊢
    split
    · next hfinite =>
      rw [if_pos hfinite] at hheld
      exact hheld (.inl ⟨x, rfl⟩)
    · next hfinite =>
      rw [Value.text, Value.floatText, if_neg hfinite]
      exact .word rfl
  | int n =>
    rw [Value.text, Value.intText, String.toList_ofList]
    exact .one (u := .int n) trivial nofun
  | list items =>
    have hitems := laid_items hinner items h
    rw [Value.text, Value.meaning, Grammar.Value.pieces, itemTexts_eq_map,
      itemPieces_itemMeanings, String.toList_append, String.toList_append]
    exact .brackets rfl (by decide) rfl rfl (.intercalate hitems)
  | null => exact .word rfl
  | object fields => exact Value.laid_of_isHeld hinner h (.inr ⟨_, rfl⟩)
  | string s =>
    have hall := Laid.token (writtenAs_string hinner h) (fun _ => .nil) .nil
    rw [Value.text, String.toList_append, String.toList_append]
    simpa [Terminal.token, Terminal.spelling, Value.meaning, Grammar.Value.pieces] using hall
  | reference v =>
    rw [Value.text, VariableRef.text, String.toList_append]
    exact .mark rfl (by decide) (.word h)

/-- Items are written in the pieces of their counterparts. -/
theorem laid_items (hinner : ∀ c, inner c = true → isInner c = true)
    (vs : List Value) (h : itemsSpellable inner vs) :
    ∀ v ∈ vs, Laid (Verbatim inner) v.text.toList v.meaning.pieces := by
  cases vs with
  | nil => exact List.forall_mem_nil _
  | cons v vs => exact List.forall_mem_cons.mpr ⟨v.laid_text hinner h.1, laid_items hinner vs h.2⟩

end

end Spelling

end QueryDoc
