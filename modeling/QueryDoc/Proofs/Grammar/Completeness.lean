import QueryDoc.Proofs.Grammar.Soundness

/-!
# QueryDoc.Proofs.Grammar.Completeness

The parser reads everything that the grammar derives. Each lemma puts the terminals of a
phrase in front of what follows and finds the phrase again. What follows must not look like
a continuation (`Stops`), and there must be room for nested calls, which the number of
terminals bounds.

`document_eq_ok_iff` puts this together with the soundness of the parser.
-/

namespace QueryDoc.Grammar.Parser

variable {rest : Input}

/-! ## What follows a phrase -/

/-- None of these marks comes next. -/
def Stops (marks : List Char) (rest : Input) : Prop := ∀ c ∈ marks, rest.head? ≠ some (.mark c)

@[simp] theorem mark_self (c : Char) (rest : Input) : mark c (.mark c :: rest) = .ok ((), rest) :=
  mark_eq_ok.mpr rfl

@[simp] theorem name_self (s : String) (rest : Input) : name (.name s :: rest) = .ok (s, rest) :=
  rfl

@[simp] theorem keyword_self (s : String) (rest : Input) :
    keyword s (.name s :: rest) = .ok ((), rest) := keyword_eq_ok.mpr rfl

/-- A mark that does not come next is not read. -/
theorem mark_of_head_ne {c : Char} (h : rest.head? ≠ some (.mark c)) :
    mark c rest = .error rest := by
  unfold mark
  split
  · next d ts =>
    rw [if_neg]
    rintro rfl
    exact h rfl
  · rfl

/-- None of the marks that a phrase stops in front of is read. -/
theorem Stops.mark_eq {marks : List Char} (h : Stops marks rest) {c : Char} (hc : c ∈ marks) :
    mark c rest = .error rest := mark_of_head_ne (h c hc)

theorem Stops.of_subset {marks marks' : List Char} (h : Stops marks rest) (hs : marks' ⊆ marks) :
    Stops marks' rest := fun c hc => h c (hs hc)

/-- A mark stops every phrase that does not go on with it. -/
theorem stops_mark {marks : List Char} {c : Char} (h : c ∉ marks) (rest : Input) :
    Stops marks (.mark c :: rest) := by
  intro d hd he
  obtain rfl : c = d := by simpa using he
  exact h hd

/-- A name stops every phrase that goes on with a mark. -/
theorem stops_name (marks : List Char) (s : String) (rest : Input) :
    Stops marks (.name s :: rest) := by
  intro d hd he
  simp at he

/-- Brackets that may be absent stop a phrase that does not go on with the opening one, if what
follows them does. -/
theorem Stops.bracketed {marks : List Char} (h : Stops marks rest) {opening : Char}
    (ho : opening ∉ marks) (closing : Char) (slots : List Slot) :
    Stops marks (slotTerminals (bracketed opening closing slots) ++ rest) := by
  cases slots with
  | nil => exact h
  | cons s ss => exact stops_mark ho _

/-- Directives that may be absent stop a phrase that does not go on with an at sign, if what follows
them does. -/
theorem Stops.directives {marks : List Char} (h : Stops marks rest) (ha : '@' ∉ marks)
    (ds : List Directive) : Stops marks (slotTerminals (directivesSlots ds) ++ rest) := by
  cases ds with
  | nil => exact h
  | cons d ds => exact stops_mark ha _

/-! ## Values -/

/-- Every value has a terminal, so that there is always room for one call. -/
theorem length_terminals_pos (v : Value) : 0 < v.terminals.length := by
  cases v <;> simp [Value.terminals]

/-- No value begins with a closing bracket. -/
theorem stops_value (v : Value) (rest : Input) : Stops [']', ')'] (v.terminals ++ rest) := by
  cases v <;> simp [Value.terminals, Stops]

mutual

/-- A value is read in front of everything: no value goes on with what may follow it. Each terminal
bounds two nested calls, one for a row and one for what stands in it. -/
theorem value_complete (constant : Bool) (v : Value)
    (hc : constant = true → v.isConstant = true) (rest : Input) {n : Nat}
    (hn : 2 * v.terminals.length ≤ n) :
    value constant n (v.terminals ++ rest) = .ok (v, rest) := by
  obtain ⟨n, rfl⟩ : ∃ m, n = m + 1 := by
    have := length_terminals_pos v
    exact ⟨n - 1, by omega⟩
  cases v with
  | name s => rfl
  | int i => rfl
  | float x => rfl
  | string s => rfl
  | reference s =>
    have hcon : constant = false := by
      cases constant with
      | false => rfl
      | true => exact absurd (hc rfl) (by simp [Value.isConstant])
    simp [Value.terminals, value, hcon, bind, Except.bind]
  | list items =>
    have hitems := listItems_complete constant items hc rest (n := n) (by
      simp only [Value.terminals, List.length_cons, List.length_append] at hn
      omega)
    simp [Value.terminals, value, hitems, bind, Except.bind]
  | object fields =>
    have hfields := objectFields_complete constant fields hc rest (n := n) (by
      simp only [Value.terminals, List.length_cons, List.length_append] at hn
      omega)
    simp [Value.terminals, value, hfields, bind, Except.bind]

/-- The items of a list are read up to the bracket that closes it. -/
theorem listItems_complete (constant : Bool) (vs : List Value)
    (hc : constant = true → itemsConstant vs = true) (rest : Input) {n : Nat}
    (hn : 2 * (itemTerminals vs).length + 1 ≤ n) :
    listItems constant n (itemTerminals vs ++ .mark ']' :: rest) = .ok (vs, rest) := by
  obtain ⟨n, rfl⟩ : ∃ m, n = m + 1 := ⟨n - 1, by omega⟩
  cases vs with
  | nil => simp [itemTerminals, listItems]
  | cons v vs =>
    have hpos := length_terminals_pos v
    simp only [itemTerminals, List.length_append] at hn
    have hv := value_complete constant v (fun h => by
      have := hc h
      simp_all [itemsConstant]) (itemTerminals vs ++ .mark ']' :: rest) (n := n) (by omega)
    have hvs := listItems_complete constant vs (fun h => by
      have := hc h
      simp_all [itemsConstant]) rest (n := n) (by omega)
    have hstop := (stops_value v (itemTerminals vs ++ .mark ']' :: rest)).mark_eq (c := ']')
      (by simp)
    simp [itemTerminals, listItems, hstop, hv, hvs, bind, Except.bind]

/-- The fields of an object are read up to the brace that closes it. -/
theorem objectFields_complete (constant : Bool) (fs : List (String × Value))
    (hc : constant = true → fieldsConstant fs = true) (rest : Input) {n : Nat}
    (hn : 2 * (fieldTerminals fs).length + 1 ≤ n) :
    objectFields constant n (fieldTerminals fs ++ .mark '\x7d' :: rest) = .ok (fs, rest) := by
  obtain ⟨n, rfl⟩ : ∃ m, n = m + 1 := ⟨n - 1, by omega⟩
  cases fs with
  | nil => simp [fieldTerminals, objectFields]
  | cons f fs =>
    obtain ⟨key, v⟩ := f
    simp only [fieldTerminals, List.length_append, List.length_cons] at hn
    have hv := value_complete constant v (fun h => by
      have := hc h
      simp_all [fieldsConstant]) (fieldTerminals fs ++ .mark '\x7d' :: rest) (n := n) (by omega)
    have hfs := objectFields_complete constant fs (fun h => by
      have := hc h
      simp_all [fieldsConstant]) rest (n := n) (by omega)
    have hstop := (stops_name ['\x7d'] key (.mark ':' :: (v.terminals ++
      (fieldTerminals fs ++ .mark '\x7d' :: rest)))).mark_eq (List.mem_singleton_self _)
    simp [fieldTerminals, objectFields, hstop, hv, hfs, bind, Except.bind]

end

/-- There is room for a value among the terminals that are left. -/
theorem value_room (constant : Bool) (v : Value) (hc : constant = true → v.isConstant = true)
    (rest : Input) :
    value constant (room (v.terminals ++ rest)) (v.terminals ++ rest) = .ok (v, rest) := by
  refine value_complete constant v hc rest ?_
  simp only [room, List.length_append]
  omega

/-! ## Arguments and directives -/

/-- Arguments are read up to the parenthesis that closes them. -/
theorem argumentList_complete {as : Arguments} (hne : as ≠ []) (rest : Input) {n : Nat}
    (hn : as.length ≤ n) :
    argumentList n (slotTerminals (as.flatMap argumentSlots) ++ .mark ')' :: rest) =
      .ok (as, rest) := by
  induction as generalizing n with
  | nil => contradiction
  | cons a as ih =>
    obtain ⟨key, v⟩ := a
    obtain ⟨n, rfl⟩ : ∃ m, n = m + 1 := ⟨n - 1, by rw [List.length_cons] at hn; omega⟩
    have hv := value_room false v (by simp)
      (slotTerminals (as.flatMap argumentSlots) ++ .mark ')' :: rest)
    cases as with
    | nil =>
      simp only [List.flatMap_nil, slotTerminals_nil, List.nil_append] at hv
      simp [argumentSlots, argumentList, hv, bind, Except.bind]
    | cons b bs =>
      have hstop : mark ')' (slotTerminals ((b :: bs).flatMap argumentSlots) ++
          .mark ')' :: rest) = .error _ := mark_of_head_ne (by simp [argumentSlots])
      have hbs := ih (List.cons_ne_nil _ _) (n := n) (Nat.le_of_succ_le_succ hn)
      rw [List.flatMap_cons]
      simp only [argumentSlots, List.cons_append, List.nil_append, slotTerminals_word,
        slotTerminals_mark, slotTerminals_value, List.append_assoc]
      unfold argumentList
      simp only [bind, Except.bind, name_self, mark_self, hv, hstop, hbs]

/-- A row has at least as many terminals as members, so that they bound the number of calls. -/
theorem length_le_length_slotTerminals {f : α → List Slot}
    (h : ∀ a, 0 < (slotTerminals (f a)).length) (as : List α) :
    as.length ≤ (slotTerminals (as.flatMap f)).length := by
  induction as with
  | nil => exact Nat.zero_le _
  | cons a as ih =>
    have := h a
    simp only [List.flatMap_cons, slotTerminals_append, List.length_append, List.length_cons]
    omega

/-- Arguments are read, or found absent where no parenthesis follows. -/
theorem arguments_complete (as : Arguments) (h : Stops ['('] rest) :
    arguments (slotTerminals (argumentsSlots as) ++ rest) = .ok (as, rest) := by
  cases as with
  | nil =>
    unfold arguments
    simp [argumentsSlots, bracketed, h.mark_eq]
  | cons a as =>
    have hslots : (a :: as).flatMap argumentSlots ≠ [] := by simp [argumentSlots]
    have hlen := length_le_length_slotTerminals (f := argumentSlots)
      (fun a => by simp [argumentSlots]) (a :: as)
    have hlist := argumentList_complete (List.cons_ne_nil a as) rest
      (n := room (slotTerminals ((a :: as).flatMap argumentSlots) ++ .mark ')' :: rest)) (by
        simp only [room, List.length_append]
        omega)
    unfold arguments
    rw [argumentsSlots, bracketed_of_ne_nil hslots]
    simp only [slotTerminals_append, slotTerminals_mark, slotTerminals_nil, List.cons_append,
      List.append_assoc, List.nil_append, mark_self, hlist]

/-- Directives are read until no at sign follows. A parenthesis would belong to the last of them. -/
theorem directiveList_complete (ds : List Directive) (h : Stops ['(', '@'] rest) {n : Nat}
    (hn : ds.length < n) :
    directiveList n (slotTerminals (directivesSlots ds) ++ rest) = .ok (ds, rest) := by
  induction ds generalizing n with
  | nil =>
    obtain ⟨n, rfl⟩ : ∃ m, n = m + 1 := ⟨n - 1, by omega⟩
    simp [directivesSlots, directiveList, h.mark_eq]
  | cons d ds ih =>
    obtain ⟨n, rfl⟩ : ∃ m, n = m + 1 := ⟨n - 1, by omega⟩
    rw [List.length_cons] at hn
    have hds := ih (n := n) (by omega)
    have has := arguments_complete d.arguments
      ((h.of_subset (by simp)).directives (by decide) ds)
    simp only [directivesSlots, List.flatMap_cons, Directive.slots, slotTerminals_append,
      List.cons_append, slotTerminals_mark, slotTerminals_word, List.append_assoc]
    unfold directivesSlots at has hds
    unfold directiveList
    simp only [mark_self, bind, Except.bind, name_self, has, hds]

theorem directives_complete (ds : List Directive) (h : Stops ['(', '@'] rest) :
    directives (slotTerminals (directivesSlots ds) ++ rest) = .ok (ds, rest) := by
  have hlen := length_le_length_slotTerminals (f := Directive.slots)
    (fun d => by simp [Directive.slots]) ds
  refine directiveList_complete ds h ?_
  simp only [room, List.length_append, directivesSlots]
  omega

/-! ## Types and variables -/

/-- Whether a type is required is read off what follows it. -/
theorem required_complete (r : Bool) (h : Stops ['!'] rest) :
    required (slotTerminals (requiredSlots r) ++ rest) = (r, rest) := by
  cases r with
  | false => simp [requiredSlots, required, h.mark_eq]
  | true => simp [requiredSlots, required]

/-- A type is read, if no exclamation mark follows that is not its own. -/
theorem typeRef_complete (type : TypeRef) (h : Stops ['!'] rest) {n : Nat}
    (hn : (slotTerminals type.slots).length ≤ n) :
    typeRef n (slotTerminals type.slots ++ rest) = .ok (type, rest) := by
  induction type generalizing n rest with
  | named s r =>
    obtain ⟨n, rfl⟩ : ∃ m, n = m + 1 := ⟨n - 1, by simp [TypeRef.slots] at hn; omega⟩
    have hr := required_complete r h
    have hstop := (stops_name ['['] s (slotTerminals (requiredSlots r) ++ rest)).mark_eq
      (List.mem_singleton_self _)
    simp [TypeRef.slots, typeRef, hstop, hr, bind, Except.bind]
  | list item r ih =>
    simp only [TypeRef.slots, slotTerminals_mark, slotTerminals_append, List.length_cons,
      List.length_append] at hn
    obtain ⟨n, rfl⟩ : ∃ m, n = m + 1 := ⟨n - 1, by omega⟩
    have hr := required_complete r h
    have hstop : Stops ['!'] (.mark ']' :: (slotTerminals (requiredSlots r) ++ rest)) :=
      stops_mark (by decide) _
    have hitem := ih hstop (n := n) (by omega)
    simp [TypeRef.slots, typeRef, hitem, hr, bind, Except.bind]

/-- The terminals of a type with room for it. -/
theorem typeRef_room (type : TypeRef) (h : Stops ['!'] rest) :
    typeRef (room (slotTerminals type.slots ++ rest)) (slotTerminals type.slots ++ rest) =
      .ok (type, rest) := by
  refine typeRef_complete type h ?_
  simp only [room, List.length_append]
  omega

/-- A constant default is read, or found absent where no equals sign follows. -/
theorem initialValue_complete (initial : Option Value)
    (hc : ∀ v ∈ initial, v.isConstant = true) (h : Stops ['='] rest) :
    initialValue (slotTerminals (initialSlots initial) ++ rest) = .ok (initial, rest) := by
  cases initial with
  | none => simp [initialSlots, initialValue, h.mark_eq]
  | some v =>
    have hv := value_room true v (fun _ => hc v rfl) rest
    simp [initialSlots, initialValue, hv, bind, Except.bind]

/-- A further variable, or the end of all, follows a variable. -/
theorem stops_variables (vs : List VariableDefinition) (rest : Input) :
    Stops ['!', '='] (slotTerminals (vs.flatMap VariableDefinition.slots) ++
      .mark ')' :: rest) := by
  cases vs with
  | nil => exact stops_mark (by decide) rest
  | cons v vs => exact stops_mark (by decide) _

/-- Variables are read up to the parenthesis that closes them. -/
theorem variableList_complete {vs : List VariableDefinition} (hne : vs ≠ [])
    (hwf : ∀ v ∈ vs, v.WellFormed) (rest : Input) {n : Nat} (hn : vs.length ≤ n) :
    variableList n (slotTerminals (vs.flatMap VariableDefinition.slots) ++ .mark ')' :: rest) =
      .ok (vs, rest) := by
  induction vs generalizing n with
  | nil => contradiction
  | cons v vs ih =>
    obtain ⟨n, rfl⟩ : ∃ m, n = m + 1 := ⟨n - 1, by rw [List.length_cons] at hn; omega⟩
    have hstops := stops_variables vs rest
    have hi := initialValue_complete v.initial (hwf v List.mem_cons_self)
      (hstops.of_subset (by simp))
    have hstop : Stops ['!'] (slotTerminals (initialSlots v.initial) ++
        (slotTerminals (vs.flatMap VariableDefinition.slots) ++ .mark ')' :: rest)) := by
      cases v.initial with
      | none => exact hstops.of_subset (by simp)
      | some value => exact stops_mark (by decide) _
    have ht := typeRef_room v.type hstop
    rw [List.flatMap_cons]
    simp only [VariableDefinition.slots, slotTerminals_append, List.cons_append,
      slotTerminals_word, slotTerminals_mark, List.append_assoc]
    unfold variableList
    simp only [bind, Except.bind, mark_self, name_self, ht, hi]
    cases vs with
    | nil => simp
    | cons w ws =>
      have hws := ih (List.cons_ne_nil _ _) (fun v hv => hwf v (List.mem_cons_of_mem _ hv))
        (n := n) (Nat.le_of_succ_le_succ hn)
      have hstop : mark ')' (slotTerminals ((w :: ws).flatMap VariableDefinition.slots) ++
          .mark ')' :: rest) = .error _ := mark_of_head_ne (by simp [VariableDefinition.slots])
      simp only [hstop, hws]

/-- Variables are read, or found absent where no parenthesis follows. -/
theorem variableDefinitions_complete {vs : List VariableDefinition}
    (hwf : ∀ v ∈ vs, v.WellFormed) (h : Stops ['('] rest) :
    variableDefinitions (slotTerminals (variablesSlots vs) ++ rest) = .ok (vs, rest) := by
  cases vs with
  | nil => simp [variableDefinitions, variablesSlots, bracketed, h.mark_eq]
  | cons v vs =>
    have hslots : (v :: vs).flatMap VariableDefinition.slots ≠ [] := by
      simp [VariableDefinition.slots]
    have hlen := length_le_length_slotTerminals (f := VariableDefinition.slots)
      (fun v => by simp [VariableDefinition.slots]) (v :: vs)
    have hlist := variableList_complete (List.cons_ne_nil v vs) hwf rest
      (n := room (slotTerminals ((v :: vs).flatMap VariableDefinition.slots) ++
        .mark ')' :: rest)) (by
        simp only [room, List.length_append]
        omega)
    unfold variableDefinitions
    rw [variablesSlots, bracketed_of_ne_nil hslots]
    simp only [slotTerminals_append, slotTerminals_mark, slotTerminals_nil, List.cons_append,
      List.append_assoc, List.nil_append, mark_self, hlist]

/-! ## Selections -/

/-- A field is read without a key only if no colon follows its name. -/
theorem fieldName_complete (key : Option String) (s : String) (h : Stops [':'] rest) :
    fieldName (slotTerminals (keySlots key) ++ .name s :: rest) = .ok ((key, s), rest) := by
  cases key with
  | none => simp [keySlots, fieldName, h.mark_eq, bind, Except.bind]
  | some key => simp [keySlots, fieldName, bind, Except.bind]

/-- Every selection begins with a name or with dots. -/
theorem stops_selection (s : Selection) (marks : List Char) (rest : Input) :
    Stops marks (slotTerminals s.slots ++ rest) := by
  intro c _
  cases s with
  | field key name as ds ss => cases key <;> simp [Selection.slots, keySlots]
  | spread name ds => simp [Selection.slots]
  | inlineFragment onType ds ss => simp [Selection.slots]

/-- Another selection, or the end of all, follows a selection. -/
theorem stops_selections (ss : List Selection) (rest : Input) :
    Stops ['(', '@', ':', '\x7b'] (slotTerminals (selectionSlots ss) ++ .mark '\x7d' :: rest) := by
  cases ss with
  | nil => exact stops_mark (by decide) rest
  | cons s ss =>
    rw [selectionSlots, slotTerminals_append, List.append_assoc]
    exact stops_selection s _ _

/-- A block stops every phrase that does not go on with a brace. -/
theorem stops_block {marks : List Char} (hm : '\x7b' ∉ marks) {ss : List Selection} (h : ss ≠ [])
    (rest : Input) : Stops marks (slotTerminals (blockSlots ss) ++ rest) := by
  rw [slotTerminals_blockSlots h]
  exact stops_mark hm _

/-- The terminals of a field between its name and its selections. -/
theorem stops_fieldTail {marks : List Char} (as : Arguments) (ds : List Directive)
    (h : Stops marks rest) (hp : '(' ∉ marks) (ha : '@' ∉ marks) :
    Stops marks (slotTerminals (argumentsSlots as) ++
      (slotTerminals (directivesSlots ds) ++ rest)) :=
  (h.directives ha ds).bracketed hp ')' _

/-- Every selection has a terminal. -/
theorem length_slots_pos (s : Selection) : 0 < (slotTerminals s.slots).length := by
  cases s with
  | field key name as ds ss =>
    simp only [Selection.slots, slotTerminals_append, slotTerminals_word, List.length_append,
      List.length_cons]
    omega
  | spread name ds => simp [Selection.slots]
  | inlineFragment onType ds ss => simp [Selection.slots]

/-- A block has two terminals more than its selections, its braces. -/
theorem length_blockSlots {ss : List Selection} (h : ss ≠ []) :
    (slotTerminals (blockSlots ss)).length = (slotTerminals (selectionSlots ss)).length + 2 := by
  simp [slotTerminals_blockSlots h]

/-- A field up to its selections. -/
theorem selection_field (n : Nat) (key : Option String) (s : String) (as : Arguments)
    (ds : List Directive) (h : Stops ['(', '@', ':'] rest) :
    selection (n + 1) (slotTerminals (keySlots key) ++ .name s ::
        (slotTerminals (argumentsSlots as) ++ (slotTerminals (directivesSlots ds) ++ rest))) =
      match mark '\x7b' rest with
      | .ok _ => selectionSet n rest >>= fun read => .ok (.field key s as ds read.1, read.2)
      | .error _ => .ok (.field key s as ds [], rest) := by
  have hf := fieldName_complete key s
    (stops_fieldTail as ds (h.of_subset (by simp)) (by decide) (by decide))
  have has := arguments_complete as ((h.of_subset (by simp)).directives (by decide) ds)
  have hds := directives_complete ds (h.of_subset (by simp))
  unfold selection
  split
  · next he => cases key <;> simp [keySlots] at he
  · next he => cases key <;> simp [keySlots] at he
  · rw [hf]
    change (arguments _ >>= _) = _
    rw [has]
    change (directives _ >>= _) = _
    rw [hds]
    rfl

mutual

/-- A block is read in front of everything, since its closing brace ends it. -/
theorem selectionSet_complete {ss : List Selection} (h : IsBlock ss) (rest : Input) {n : Nat}
    (hn : 2 * (slotTerminals (selectionSlots ss)).length < n) :
    selectionSet n (slotTerminals (blockSlots ss) ++ rest) = .ok (ss, rest) := by
  obtain ⟨n, rfl⟩ : ∃ m, n = m + 1 := ⟨n - 1, by omega⟩
  have hlist := selectionList_complete h rest (n := n) (by omega)
  rw [slotTerminals_blockSlots h.1]
  simp [selectionSet, hlist, bind, Except.bind]

/-- Selections are read up to the brace that closes their block. No selection begins like the rest
of the one in front of it. -/
theorem selectionList_complete {ss : List Selection} (h : IsBlock ss) (rest : Input) {n : Nat}
    (hn : 2 * (slotTerminals (selectionSlots ss)).length ≤ n) :
    selectionList n (slotTerminals (selectionSlots ss) ++ .mark '\x7d' :: rest) =
      .ok (ss, rest) := by
  cases ss with
  | nil => exact absurd rfl h.1
  | cons s ss =>
    have hpos := length_slots_pos s
    simp only [selectionSlots, slotTerminals_append, List.length_append] at hn
    obtain ⟨n, rfl⟩ : ∃ m, n = m + 1 := ⟨n - 1, by omega⟩
    obtain ⟨-, hwf, hwfs⟩ := h
    have hle : 2 * (slotTerminals s.slots).length ≤ n + 1 := by omega
    have hs := selection_complete hwf (stops_selections ss rest) hle
    rw [selectionSlots, slotTerminals_append, List.append_assoc]
    unfold selectionList
    simp only [bind, Except.bind, hs]
    cases ss with
    | nil => simp [selectionSlots]
    | cons r rs =>
      have hle : 2 * (slotTerminals (selectionSlots (r :: rs))).length ≤ n := by omega
      have hrs := selectionList_complete ⟨List.cons_ne_nil r rs, hwfs⟩ rest hle
      have hstop : Stops ['\x7d'] (slotTerminals (selectionSlots (r :: rs)) ++
          .mark '\x7d' :: rest) := by
        rw [selectionSlots, slotTerminals_append, List.append_assoc]
        exact stops_selection r _ _
      simp only [hstop.mark_eq (List.mem_singleton_self _), hrs]

/-- A selection is read in front of everything that does not continue it. -/
theorem selection_complete {s : Selection} (hwf : s.WellFormed) {rest : Input}
    (h : Stops ['(', '@', ':', '\x7b'] rest) {n : Nat}
    (hn : 2 * (slotTerminals s.slots).length ≤ n + 1) :
    selection n (slotTerminals s.slots ++ rest) = .ok (s, rest) := by
  have hpos := length_slots_pos s
  obtain ⟨n, rfl⟩ : ∃ m, n = m + 1 := ⟨n - 1, by omega⟩
  cases s with
  | field key name as ds ss =>
    simp only [Selection.slots, ← blockSlots_eq, slotTerminals_append, slotTerminals_word,
      List.length_append, List.length_cons] at hn
    simp only [Selection.slots, ← blockSlots_eq, slotTerminals_append, slotTerminals_word,
      List.append_assoc, List.cons_append]
    cases ss with
    | nil =>
      -- The field has no block, and no brace follows that could be taken for one.
      have hfield := selection_field n key name as ds (h.of_subset (by simp))
      rw [h.mark_eq (by simp)] at hfield
      simpa [blockSlots, selectionSlots, bracketed] using hfield
    | cons r rs =>
      have hne := List.cons_ne_nil r rs
      rw [length_blockSlots hne] at hn
      have hfield := selection_field n key name as ds (stops_block (by decide) hne rest)
      have hset := selectionSet_complete ⟨hne, hwf⟩ rest (n := n) (by omega)
      rw [hfield, hset, slotTerminals_blockSlots hne, List.cons_append, mark_self]
      rfl
  | spread name ds =>
    have hds := directives_complete ds (h.of_subset (by simp))
    have hon : name ≠ "on" := hwf
    simp [Selection.slots, selection, hon, hds, bind, Except.bind]
  | inlineFragment onType ds ss =>
    obtain ⟨hne, hss⟩ := hwf
    simp only [Selection.slots, ← blockSlots_eq, slotTerminals_append, slotTerminals_terminal,
      List.length_append, List.length_cons, length_blockSlots hne] at hn
    have hset := selectionSet_complete ⟨hne, hss⟩ rest (n := n) (by omega)
    have hds := directives_complete ds (stops_block (by decide) hne rest)
    simp only [Selection.slots, ← blockSlots_eq, slotTerminals_append, slotTerminals_terminal,
      List.append_assoc, List.cons_append]
    cases onType with
    | none =>
      unfold selection
      split
      · next he =>
        -- No name can follow the dots: a directive or the selections do.
        cases ds <;>
          simp [directivesSlots, typeConditionSlots, Directive.slots,
            slotTerminals_blockSlots hne] at he
      · next he =>
        obtain rfl : _ = _ := by simpa [typeConditionSlots] using he
        simp only [bind, Except.bind, hds, hset]
      · next he => exact absurd rfl (he _)
    | some type => simp [typeConditionSlots, selection, hds, hset, bind, Except.bind]

end

theorem selections_complete {ss : List Selection} (h : IsBlock ss) (rest : Input) :
    selections (slotTerminals (blockSlots ss) ++ rest) = .ok (ss, rest) := by
  refine selectionSet_complete h rest ?_
  simp only [room, List.length_append, length_blockSlots h.1]
  omega

/-! ## Definitions -/

/-- Without a name an operation goes on with a mark. -/
theorem exists_mark_of_header (vs : List VariableDefinition) (ds : List Directive)
    {ss : List Selection} (h : ss ≠ []) (rest : Input) :
    ∃ c after, slotTerminals (variablesSlots vs) ++ (slotTerminals (directivesSlots ds) ++
      (slotTerminals (blockSlots ss) ++ rest)) = .mark c :: after := by
  rw [slotTerminals_blockSlots h]
  cases vs with
  | cons v vs => exact ⟨_, _, rfl⟩
  | nil =>
    cases ds with
    | cons d ds => exact ⟨_, _, rfl⟩
    | nil => exact ⟨_, _, rfl⟩

/-- An operation is read behind its keyword, with a name or without. -/
theorem operation_complete (type : OperationType) (s : Option String)
    {vs : List VariableDefinition} (ds : List Directive) {ss : List Selection}
    (hwf : (Definition.operation type s vs ds ss).WellFormed) (rest : Input) :
    operation type (slotTerminals (s.toList.map .word) ++ (slotTerminals (variablesSlots vs) ++
        (slotTerminals (directivesSlots ds) ++ (slotTerminals (blockSlots ss) ++ rest)))) =
      .ok (.operation type s vs ds ss, rest) := by
  obtain ⟨hvs, hblock⟩ := hwf
  have hstop := stops_block (by decide : '\x7b' ∉ ['(', '@']) hblock.1 rest
  have hss := selections_complete hblock rest
  have hds := directives_complete ds hstop
  have hvs := variableDefinitions_complete hvs ((hstop.of_subset (by simp)).directives
    (by decide) ds)
  unfold operation
  cases s with
  | some s => simp [hvs, hds, hss, bind, Except.bind]
  | none =>
    obtain ⟨c, after, hmark⟩ := exists_mark_of_header vs ds hblock.1 rest
    have hname : name (.mark c :: after) = .error (.mark c :: after) := rfl
    rw [← hmark] at hname
    simp [hname, hvs, hds, hss, bind, Except.bind]

/-- A fragment is read behind its keyword. -/
theorem fragment_complete (s onType : String) (ds : List Directive) {ss : List Selection}
    (hblock : IsBlock ss) (rest : Input) :
    fragment (.name s :: .name "on" :: .name onType :: (slotTerminals (directivesSlots ds) ++
        (slotTerminals (blockSlots ss) ++ rest))) = .ok (.fragment s onType ds ss, rest) := by
  have hss := selections_complete hblock rest
  have hds := directives_complete ds (stops_block (by decide) hblock.1 rest)
  simp [fragment, hds, hss, bind, Except.bind]

/-- A definition is read in front of everything, since it ends with a block. -/
theorem definition_complete {d : Definition} (hwf : d.WellFormed) (rest : Input) :
    definition (slotTerminals d.slots ++ rest) = .ok (d, rest) := by
  cases d with
  | selectionSet ss =>
    have hss := selections_complete hwf rest
    rw [slotTerminals_blockSlots hwf.1] at hss
    rw [Definition.slots, slotTerminals_blockSlots hwf.1]
    simp only [List.cons_append] at hss ⊢
    simp only [definition, hss, bind, Except.bind]
  | operation type s vs ds ss =>
    have ho := operation_complete type s ds hwf rest
    simp only [Definition.slots, slotTerminals_word, slotTerminals_append, List.cons_append,
      List.append_assoc]
    cases type <;> simp [definition, OperationType.keyword, ho]
  | fragment s onType ds ss =>
    have hf := fragment_complete s onType ds hwf rest
    simp [definition, Definition.slots, hf]

theorem length_slots_definition_pos {d : Definition} (hwf : d.WellFormed) :
    0 < (slotTerminals d.slots).length := by
  cases d with
  | selectionSet ss => simp [Definition.slots, slotTerminals_blockSlots hwf.1]
  | operation type s vs ds ss => simp [Definition.slots]
  | fragment s onType ds ss => simp [Definition.slots]

/-- A document is read as a whole, if there is room for as many calls as it has terminals. -/
theorem document_complete {ds : Document} (hwf : ds.WellFormed) {n : Nat}
    (hn : ds.terminals.length ≤ n) : document n ds.terminals = .ok ds := by
  induction ds generalizing n with
  | nil => exact absurd rfl hwf.1
  | cons d ds ih =>
    obtain ⟨hd, hds⟩ := List.forall_mem_cons.mp hwf.2
    have hpos := length_slots_definition_pos hd
    have hread := definition_complete hd (Document.terminals ds)
    simp only [Document.terminals, Document.slots, List.flatMap_cons, slotTerminals_append,
      List.length_append] at hn hread ⊢
    obtain ⟨n, rfl⟩ : ∃ m, n = m + 1 := ⟨n - 1, by omega⟩
    unfold document
    simp only [bind, Except.bind, hread]
    cases ds with
    | nil => simp
    | cons e es =>
      have he := length_slots_definition_pos (hds e List.mem_cons_self)
      have hrest := ih ⟨List.cons_ne_nil e es, hds⟩ (n := n) (by
        simp only [Document.terminals, Document.slots]
        omega)
      have hne : (slotTerminals ((e :: es).flatMap Definition.slots)).isEmpty = false := by
        rw [List.flatMap_cons, slotTerminals_append, List.isEmpty_eq_false_iff]
        exact List.append_ne_nil_of_left_ne_nil (List.ne_nil_of_length_pos he) _
      simp only [Document.terminals, Document.slots] at hrest
      simp only [hne, hrest, Bool.false_eq_true, if_false]

/-- The parser reads a document exactly if the grammar derives the document from the
terminals. -/
theorem document_eq_ok_iff (ts : Input) (ds : Document) :
    document (room ts) ts = .ok ds ↔ ds.WellFormed ∧ ds.terminals = ts := by
  constructor
  · exact document_sound
  · rintro ⟨hwf, rfl⟩
    refine document_complete hwf ?_
    unfold room
    omega

end QueryDoc.Grammar.Parser
