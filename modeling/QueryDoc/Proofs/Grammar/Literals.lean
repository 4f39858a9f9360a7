import QueryDoc.Proofs.Grammar.Derivation
import QueryDoc.Proofs.Source.Pieces

/-!
# QueryDoc.Proofs.Grammar.Literals

Where masking cuts a document of the grammar: around the floats that stand in no object,
and around the outermost objects.

Masking knows nothing of the grammar. It tells the brace of an object from the brace of a
selection set by the token in front and by the open brackets. `pieces_terminals` says that
this is right for every document that the grammar derives.
-/

namespace QueryDoc.Grammar

open Source (Bracket Piece piecesFrom opensObject roleOf)

/-- The kind of a terminal in source text. -/
def Terminal.kind : Terminal → Source.TokenKind
  | mark c => .punctuator c
  | spread => .spread
  | name _ => .name
  | int _ => .int
  | float _ => .float
  | string _ => .string

/-! ## The pieces of values and documents -/

mutual

/-- The pieces of a value that stands in no object. -/
def Value.pieces : Value → List (Piece Terminal)
  | .float x => [.held [.float x]]
  | .object fields => [.held (Value.object fields).terminals]
  | .list items => .kept (.mark '[') :: (itemPieces items ++ [.kept (.mark ']')])
  | .reference s => [.kept (.mark '$'), .kept (.name s)]
  | .name s => [.kept (.name s)]
  | .int n => [.kept (.int n)]
  | .string s => [.kept (.string s)]

def itemPieces : List Value → List (Piece Terminal)
  | [] => []
  | v :: vs => v.pieces ++ itemPieces vs

end

/-- Only values can be held back. -/
def Slot.pieces : Slot → List (Piece Terminal)
  | terminal t => [.kept t]
  | value _ v => v.pieces

/-- The pieces of slots, one slot after the other. -/
def slotPieces (slots : List Slot) : List (Piece Terminal) := slots.flatMap Slot.pieces

@[simp] theorem slotPieces_nil : slotPieces [] = [] := rfl

@[simp] theorem slotPieces_append (ss rs : List Slot) :
    slotPieces (ss ++ rs) = slotPieces ss ++ slotPieces rs := List.flatMap_append

@[simp] theorem slotPieces_terminal (t : Terminal) (ss : List Slot) :
    slotPieces (.terminal t :: ss) = .kept t :: slotPieces ss := rfl

@[simp] theorem slotPieces_mark (c : Char) (ss : List Slot) :
    slotPieces (.mark c :: ss) = .kept (.mark c) :: slotPieces ss := rfl

@[simp] theorem slotPieces_word (s : String) (ss : List Slot) :
    slotPieces (.word s :: ss) = .kept (.name s) :: slotPieces ss := rfl

@[simp] theorem slotPieces_value (constant : Bool) (v : Value) (ss : List Slot) :
    slotPieces (.value constant v :: ss) = v.pieces ++ slotPieces ss := rfl

theorem slotPieces_flatMap (f : α → List Slot) (as : List α) :
    slotPieces (as.flatMap f) = as.flatMap fun a => slotPieces (f a) :=
  List.flatMap_assoc

/-! ## Inside an object

In an object everything goes into its run, whatever the object holds. -/

/-- Behind this token a brace does not open an object, unless in a list. -/
def Calm (previous : Option Source.TokenKind) : Prop := opensObject [] previous = false

/-- A brace that no token in front makes an object opens one in lists only. -/
theorem opensObject_of_calm {nesting : List Bracket} {previous : Option Source.TokenKind}
    (h : Calm previous) (hn : nesting.head? ≠ some .list) :
    opensObject nesting previous = false := by
  unfold Calm opensObject at *
  simp_all

/-- What stands behind a colon is a value. -/
@[simp] theorem opensObject_colon (nesting : List Bracket) :
    opensObject nesting (some (.punctuator ':')) = true := rfl

/-- What stands behind an equals sign is a default value. -/
@[simp] theorem opensObject_equals (nesting : List Bracket) :
    opensObject nesting (some (.punctuator '=')) = true := by
  simp [opensObject]

mutual

/-- In an object, the terminals of a value go into the run. A brace behind it opens no object. -/
theorem piecesFrom_value_pending (v : Value) {nesting : List Bracket}
    {previous : Option Source.TokenKind} (hn : .object ∈ nesting)
    (ho : opensObject nesting previous = true) :
    ∃ last, Calm last ∧ ∀ run rest,
      piecesFrom Terminal.kind nesting previous (some run) (v.terminals ++ rest) =
        piecesFrom Terminal.kind nesting last (some (v.terminals.reverse ++ run)) rest := by
  cases v with
  | name s => exact ⟨some .name, rfl, fun run rest => rfl⟩
  | int n => exact ⟨some .int, rfl, fun run rest => rfl⟩
  | float x => exact ⟨some .float, rfl, fun run rest => rfl⟩
  | string s => exact ⟨some .string, rfl, fun run rest => rfl⟩
  | reference s => exact ⟨some .name, rfl, fun run rest => rfl⟩
  | list items =>
    refine ⟨some (.punctuator ']'), rfl, fun run rest => ?_⟩
    obtain ⟨last, hitems⟩ := piecesFrom_items_pending items (.list :: nesting)
      (some (.punctuator '[')) (List.mem_cons_of_mem _ hn) rfl
    simp [Value.terminals, piecesFrom, roleOf, Terminal.kind, hitems]
  | object fields =>
    refine ⟨some (.punctuator '\x7d'), rfl, fun run rest => ?_⟩
    obtain ⟨last, hfields⟩ := piecesFrom_fields_pending fields (.object :: nesting)
      (some (.punctuator '\x7b')) List.mem_cons_self
    simp [Value.terminals, piecesFrom, roleOf, Terminal.kind, ho, hn, hfields]

/-- In an object, the items of a list go into the run. In a list a brace opens an object behind
every item, so that it does not matter what stands in front. -/
theorem piecesFrom_items_pending (vs : List Value) (nesting : List Bracket)
    (previous : Option Source.TokenKind) (hn : .object ∈ nesting)
    (hl : nesting.head? = some .list) :
    ∃ last, ∀ run rest,
      piecesFrom Terminal.kind nesting previous (some run) (itemTerminals vs ++ rest) =
        piecesFrom Terminal.kind nesting last (some ((itemTerminals vs).reverse ++ run)) rest := by
  cases vs with
  | nil => exact ⟨previous, fun run rest => rfl⟩
  | cons v vs =>
    have ho : opensObject nesting previous = true := by simp [opensObject, hl]
    obtain ⟨middle, -, hv⟩ := piecesFrom_value_pending v hn ho
    obtain ⟨last, hvs⟩ := piecesFrom_items_pending vs nesting middle hn hl
    refine ⟨last, fun run rest => ?_⟩
    simp [itemTerminals, hv, hvs]

/-- In an object, fields go into the run: each value stands behind a colon. -/
theorem piecesFrom_fields_pending (fs : List (String × Value)) (nesting : List Bracket)
    (previous : Option Source.TokenKind) (hn : .object ∈ nesting) :
    ∃ last, ∀ run rest,
      piecesFrom Terminal.kind nesting previous (some run) (fieldTerminals fs ++ rest) =
        piecesFrom Terminal.kind nesting last (some ((fieldTerminals fs).reverse ++ run)) rest := by
  cases fs with
  | nil => exact ⟨previous, fun run rest => rfl⟩
  | cons f fs =>
    obtain ⟨key, v⟩ := f
    obtain ⟨middle, -, hv⟩ := piecesFrom_value_pending v hn (opensObject_colon nesting)
    obtain ⟨last, hfs⟩ := piecesFrom_fields_pending fs nesting middle hn
    refine ⟨last, fun run rest => ?_⟩
    simp [fieldTerminals, piecesFrom, roleOf, Terminal.kind, hv, hfs]

end

/-! ## Outside all objects -/

mutual

/-- A value is cut into its pieces where a brace would open an object. -/
theorem piecesFrom_value (v : Value) {nesting : List Bracket}
    {previous : Option Source.TokenKind} (hn : .object ∉ nesting)
    (ho : opensObject nesting previous = true) :
    ∃ last, Calm last ∧ ∀ rest,
      piecesFrom Terminal.kind nesting previous none (v.terminals ++ rest) =
        v.pieces ++ piecesFrom Terminal.kind nesting last none rest := by
  cases v with
  | name s => exact ⟨some .name, rfl, fun rest => rfl⟩
  | int n => exact ⟨some .int, rfl, fun rest => rfl⟩
  | float x => exact ⟨some .float, rfl, fun rest => rfl⟩
  | string s => exact ⟨some .string, rfl, fun rest => rfl⟩
  | reference s => exact ⟨some .name, rfl, fun rest => rfl⟩
  | list items =>
    refine ⟨some (.punctuator ']'), rfl, fun rest => ?_⟩
    obtain ⟨last, hitems⟩ := piecesFrom_items items (.list :: nesting)
      (some (.punctuator '[')) (by simp [hn]) rfl
    simp [Value.terminals, Value.pieces, piecesFrom, roleOf, Terminal.kind, hitems]
  | object fields =>
    refine ⟨some (.punctuator '\x7d'), rfl, fun rest => ?_⟩
    obtain ⟨last, hfields⟩ := piecesFrom_fields_pending fields (.object :: nesting)
      (some (.punctuator '\x7b')) List.mem_cons_self
    simp [Value.terminals, Value.pieces, piecesFrom, roleOf, Terminal.kind, ho, hn, hfields]

/-- The items of a list are cut into their pieces one by one. -/
theorem piecesFrom_items (vs : List Value) (nesting : List Bracket)
    (previous : Option Source.TokenKind) (hn : .object ∉ nesting)
    (hl : nesting.head? = some .list) :
    ∃ last, ∀ rest,
      piecesFrom Terminal.kind nesting previous none (itemTerminals vs ++ rest) =
        itemPieces vs ++ piecesFrom Terminal.kind nesting last none rest := by
  cases vs with
  | nil => exact ⟨previous, fun rest => rfl⟩
  | cons v vs =>
    have ho : opensObject nesting previous = true := by simp [opensObject, hl]
    obtain ⟨middle, -, hv⟩ := piecesFrom_value v hn ho
    obtain ⟨last, hvs⟩ := piecesFrom_items vs nesting middle hn hl
    refine ⟨last, fun rest => ?_⟩
    simp [itemTerminals, itemPieces, hv, hvs]

end

/-! ## Phrases -/

/-- Inside these brackets, and behind any token that leaves braces alone, slots are cut into
their pieces, and leave braces alone themselves. -/
def Cuts (nesting : List Bracket) (slots : List Slot) : Prop :=
  ∀ previous, Calm previous → ∃ last, Calm last ∧ ∀ rest,
    piecesFrom Terminal.kind nesting previous none (slotTerminals slots ++ rest) =
      slotPieces slots ++ piecesFrom Terminal.kind nesting last none rest

section Phrases

variable {nesting : List Bracket}

theorem cuts_nil (nesting : List Bracket) : Cuts nesting [] :=
  fun previous hp => ⟨previous, hp, fun _ => rfl⟩

/-- Slots that are cut into their pieces may follow each other. -/
theorem Cuts.append {ss rs : List Slot} (hs : Cuts nesting ss) (hr : Cuts nesting rs) :
    Cuts nesting (ss ++ rs) := by
  intro previous hp
  obtain ⟨middle, hm, hss⟩ := hs previous hp
  obtain ⟨last, hl, hrs⟩ := hr middle hm
  refine ⟨last, hl, fun rest => ?_⟩
  simp [hss, hrs]

theorem cuts_flatMap {f : α → List Slot} {as : List α} (h : ∀ a ∈ as, Cuts nesting (f a)) :
    Cuts nesting (as.flatMap f) := by
  induction as with
  | nil => exact cuts_nil nesting
  | cons a as ih =>
    obtain ⟨ha, has⟩ := List.forall_mem_cons.mp h
    exact ha.append (ih has)

/-- A brace behind a name opens no object. -/
theorem cuts_word (nesting : List Bracket) (s : String) : Cuts nesting [.word s] :=
  fun _ _ => ⟨some .name, rfl, fun _ => rfl⟩

theorem cuts_spread (nesting : List Bracket) : Cuts nesting [.terminal .spread] :=
  fun _ _ => ⟨some .spread, rfl, fun _ => rfl⟩

/-- A mark that is no bracket, and behind which no value stands. -/
theorem cuts_mark (nesting : List Bracket) {c : Char} (hc : c = '@' ∨ c = '$' ∨ c = '!') :
    Cuts nesting [.mark c] := by
  intro previous _
  obtain rfl | rfl | rfl := hc
  · exact ⟨some (.punctuator '@'), rfl, fun _ => rfl⟩
  · exact ⟨some (.punctuator '$'), rfl, fun _ => rfl⟩
  · exact ⟨some (.punctuator '!'), rfl, fun _ => rfl⟩

/-- Parentheses are kept, and what they hold is cut into its pieces. -/
theorem cuts_parentheses {slots : List Slot} (h : Cuts (.parentheses :: nesting) slots) :
    Cuts nesting (bracketed '(' ')' slots) := by
  intro previous hp
  by_cases hs : slots = []
  · rw [hs]
    exact cuts_nil nesting previous hp
  · obtain ⟨last, -, hslots⟩ := h (some (.punctuator '(')) rfl
    refine ⟨some (.punctuator ')'), rfl, fun rest => ?_⟩
    simp [bracketed_of_ne_nil hs, piecesFrom, roleOf, Terminal.kind, hslots]

/-- Braces around slots, even if there are none. -/
theorem cuts_braced {slots : List Slot} (hn : nesting.head? ≠ some .list)
    (h : Cuts (.block :: nesting) slots) :
    Cuts nesting (.mark '\x7b' :: (slots ++ [.mark '\x7d'])) := by
  intro previous hp
  obtain ⟨last, -, hslots⟩ := h (some (.punctuator '\x7b')) rfl
  have ho := opensObject_of_calm hp hn
  refine ⟨some (.punctuator '\x7d'), rfl, fun rest => ?_⟩
  simp [piecesFrom, roleOf, Terminal.kind, ho, hslots]

/-- Braces that open no object are kept, and what they hold is cut into its pieces. -/
theorem cuts_braces {slots : List Slot} (hn : nesting.head? ≠ some .list)
    (h : Cuts (.block :: nesting) slots) : Cuts nesting (bracketed '\x7b' '\x7d' slots) := by
  by_cases hs : slots = []
  · rw [hs]
    exact cuts_nil nesting
  · rw [bracketed_of_ne_nil hs]
    exact cuts_braced hn h

/-- A value behind a colon or an equals sign. -/
theorem cuts_value (hn : .object ∉ nesting) {c : Char} (hc : c = ':' ∨ c = '=')
    (constant : Bool) (v : Value) : Cuts nesting [.mark c, .value constant v] := by
  intro previous _
  obtain rfl | rfl := hc
  · obtain ⟨last, hl, hv⟩ := piecesFrom_value v hn (opensObject_colon nesting)
    refine ⟨last, hl, fun rest => ?_⟩
    simp [piecesFrom, roleOf, Terminal.kind, hv]
  · obtain ⟨last, hl, hv⟩ := piecesFrom_value v hn (opensObject_equals nesting)
    refine ⟨last, hl, fun rest => ?_⟩
    simp [piecesFrom, roleOf, Terminal.kind, hv]

/-- The values of arguments stand behind colons. -/
theorem cuts_arguments (hn : .object ∉ nesting) (as : Arguments) :
    Cuts nesting (argumentsSlots as) := by
  refine cuts_parentheses (cuts_flatMap fun a _ => ?_)
  exact (cuts_word _ a.1).append (cuts_value (by simp [hn]) (.inl rfl) false a.2)

/-- Directives have arguments and nothing else that could be held back. -/
theorem cuts_directives (hn : .object ∉ nesting) (ds : List Directive) :
    Cuts nesting (directivesSlots ds) := by
  refine cuts_flatMap fun d _ => ?_
  exact (cuts_mark _ (.inl rfl)).append ((cuts_word _ d.name).append (cuts_arguments hn _))

/-- An exclamation mark leaves braces alone. -/
theorem cuts_required (nesting : List Bracket) (required : Bool) :
    Cuts nesting (requiredSlots required) := by
  cases required with
  | false => exact cuts_nil nesting
  | true => exact cuts_mark nesting (.inr (.inr rfl))

/-- A type holds no brace, so it does not matter what stands in front of it. -/
theorem piecesFrom_typeRef (type : TypeRef) (nesting : List Bracket)
    (previous : Option Source.TokenKind) : ∃ last, Calm last ∧ ∀ rest,
    piecesFrom Terminal.kind nesting previous none (slotTerminals type.slots ++ rest) =
      slotPieces type.slots ++ piecesFrom Terminal.kind nesting last none rest := by
  induction type generalizing nesting previous with
  | named s required =>
    obtain ⟨last, hl, hr⟩ := cuts_required nesting required (some .name) rfl
    refine ⟨last, hl, fun rest => ?_⟩
    simp [TypeRef.slots, piecesFrom, roleOf, Terminal.kind, hr]
  | list item required ih =>
    obtain ⟨middle, -, hitem⟩ := ih (.list :: nesting) (some (.punctuator '['))
    obtain ⟨last, hl, hr⟩ := cuts_required nesting required (some (.punctuator ']')) rfl
    refine ⟨last, hl, fun rest => ?_⟩
    simp [TypeRef.slots, piecesFrom, roleOf, Terminal.kind, hitem, hr]

/-- The default of a variable stands behind an equals sign. -/
theorem cuts_variable (hn : .object ∉ nesting) (v : VariableDefinition) :
    Cuts nesting v.slots := by
  intro previous _
  have hi : Cuts nesting (initialSlots v.initial) := by
    cases v.initial with
    | none => exact cuts_nil nesting
    | some value => exact cuts_value hn (.inr rfl) true value
  obtain ⟨middle, hm, ht⟩ := piecesFrom_typeRef v.type nesting (some (.punctuator ':'))
  obtain ⟨last, hl, hi⟩ := hi middle hm
  refine ⟨last, hl, fun rest => ?_⟩
  simp [VariableDefinition.slots, piecesFrom, roleOf, Terminal.kind, ht, hi]

/-- Variables may follow each other without anything between them. -/
theorem cuts_variables (hn : .object ∉ nesting) (vs : List VariableDefinition) :
    Cuts nesting (variablesSlots vs) :=
  cuts_parentheses (cuts_flatMap fun v _ => cuts_variable (by simp [hn]) v)

/-- The name behind a key is no value, though it stands behind a colon. -/
theorem cuts_key (nesting : List Bracket) (key : Option String) (s : String) :
    Cuts nesting (keySlots key ++ [.word s]) := by
  cases key with
  | none => exact cuts_word nesting s
  | some key => exact fun _ _ => ⟨some .name, rfl, fun _ => rfl⟩

/-- The type of a fragment is a name. -/
theorem cuts_typeCondition (nesting : List Bracket) (onType : Option String) :
    Cuts nesting (typeConditionSlots onType) := by
  cases onType with
  | none => exact cuts_nil nesting
  | some type => exact (cuts_word nesting "on").append (cuts_word nesting type)

mutual

/-- The braces of a selection open no object, as no selection stands in a list. -/
theorem cuts_selection (s : Selection) {nesting : List Bracket} (hn : .object ∉ nesting)
    (hl : nesting.head? ≠ some .list) : Cuts nesting s.slots := by
  cases s with
  | field key name as ds ss =>
    have hss := cuts_braces hl (cuts_selections ss (by simp [hn]) (by simp))
    have htail := ((cuts_arguments hn as).append (cuts_directives hn ds)).append hss
    have hfield := (cuts_key nesting key name).append htail
    simpa [Selection.slots] using hfield
  | spread name ds =>
    exact (cuts_spread nesting).append ((cuts_word nesting name).append (cuts_directives hn ds))
  | inlineFragment onType ds ss =>
    have hss := cuts_braces hl (cuts_selections ss (by simp [hn]) (by simp))
    have htail := ((cuts_typeCondition nesting onType).append (cuts_directives hn ds)).append hss
    exact (cuts_spread nesting).append htail

theorem cuts_selections (ss : List Selection) {nesting : List Bracket} (hn : .object ∉ nesting)
    (hl : nesting.head? ≠ some .list) : Cuts nesting (selectionSlots ss) := by
  cases ss with
  | nil => exact cuts_nil nesting
  | cons s ss => exact (cuts_selection s hn hl).append (cuts_selections ss hn hl)

end

/-- The block of a definition stands outside all brackets. -/
theorem cuts_block (ss : List Selection) : Cuts [] (blockSlots ss) :=
  cuts_braces (by simp) (cuts_selections ss (by simp) (by simp))

/-- A definition is cut into the pieces of its slots. -/
theorem cuts_definition (d : Definition) : Cuts [] d.slots := by
  have hn : Bracket.object ∉ [] := List.not_mem_nil
  cases d with
  | selectionSet ss => exact cuts_block ss
  | operation type s vs ds ss =>
    have hs : Cuts [] (s.toList.map .word) := by
      cases s with
      | none => exact cuts_nil []
      | some s => exact cuts_word [] s
    have htail := ((hs.append (cuts_variables hn vs)).append (cuts_directives hn ds)).append
      (cuts_block ss)
    exact (cuts_word [] type.keyword).append htail
  | fragment s onType ds ss =>
    have htail := (cuts_directives hn ds).append (cuts_block ss)
    have hhead := (((cuts_word [] "fragment").append (cuts_word [] s)).append
      (cuts_word [] "on")).append (cuts_word [] onType)
    exact hhead.append htail

/-- Slots that are cut into their pieces outside all brackets are cut so as a whole. -/
theorem Cuts.pieces_eq {slots : List Slot} (h : Cuts [] slots) :
    Source.pieces Terminal.kind (slotTerminals slots) = slotPieces slots := by
  obtain ⟨last, -, hpieces⟩ := h none rfl
  simpa [Source.pieces, piecesFrom] using hpieces []

end Phrases

/-- The pieces of a document are those of its values, and all else stays. -/
theorem pieces_terminals (document : Document) :
    Source.pieces Terminal.kind document.terminals = slotPieces document.slots :=
  Cuts.pieces_eq (cuts_flatMap fun d _ => cuts_definition d)

end QueryDoc.Grammar
