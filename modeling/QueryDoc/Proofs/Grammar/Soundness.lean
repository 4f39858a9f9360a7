import QueryDoc.Proofs.Grammar.Derivation

/-!
# QueryDoc.Proofs.Grammar.Soundness

The parser reads only what the grammar derives: each function that reads a phrase takes the
terminals of the phrase off the front of its input (`document_sound` for whole documents).
-/

namespace QueryDoc.Grammar.Parser

variable {ts rest : Input}

/-! ## Single terminals -/

/-- What two steps in a row have read: the second one goes on where the first one stopped. -/
theorem bind_eq_ok_iff {read : Except ε α} {next : α → Except ε β} {b : β} :
    read >>= next = .ok b ↔ ∃ a, read = .ok a ∧ next a = .ok b := by
  cases read <;> simp [bind, Except.bind]

/-- Reading a name succeeds exactly in front of one, and takes it off. -/
theorem name_eq_ok {s : String} : name ts = .ok (s, rest) ↔ ts = .name s :: rest := by
  unfold name
  split
  · simp
  · next h =>
    constructor
    · intro he
      contradiction
    · intro he
      exact absurd he (h s rest)

/-- Reading a mark succeeds exactly in front of it. -/
theorem mark_eq_ok {c : Char} {u : Unit} : mark c ts = .ok (u, rest) ↔ ts = .mark c :: rest := by
  unfold mark
  split
  · next d ts =>
    split
    · next hd => simp [hd]
    · next hd => simp [hd]
  · next h =>
    constructor
    · intro he
      contradiction
    · intro he
      exact absurd he (h c rest)

/-- A keyword is a name of its own, so that it is read like one. -/
theorem keyword_eq_ok {word : String} {u : Unit} :
    keyword word ts = .ok (u, rest) ↔ ts = .name word :: rest := by
  unfold keyword
  split
  · next d ts =>
    split
    · next hd => simp [hd]
    · next hd => simp [hd]
  · next h =>
    constructor
    · intro he
      contradiction
    · intro he
      exact absurd he (h word rest)

/-! ## Values -/

mutual

/-- What is read as a value is one, without variables where the grammar asks for a constant. -/
theorem value_sound {constant : Bool} {n : Nat} {ts rest : Input} {v : Value}
    (h : value constant n ts = .ok (v, rest)) :
    ts = v.terminals ++ rest ∧ (constant = true → v.isConstant = true) := by
  cases n with
  | zero => simp [value] at h
  | succ n =>
    unfold value at h
    split at h
    · cases h
      exact ⟨rfl, fun _ => rfl⟩
    · cases h
      exact ⟨rfl, fun _ => rfl⟩
    · cases h
      exact ⟨rfl, fun _ => rfl⟩
    · cases h
      exact ⟨rfl, fun _ => rfl⟩
    -- A mark begins a list, an object or, if the value need not be constant, a variable.
    · split at h
      · next hc =>
        simp only [bind_eq_ok_iff, Prod.exists] at h
        obtain ⟨s, ts, hs, h⟩ := h
        obtain rfl := name_eq_ok.mp hs
        cases h
        exact ⟨by rw [hc.1]; rfl, fun ht => absurd ht (by simp [hc.2])⟩
      split at h
      · next hc =>
        simp only [bind_eq_ok_iff, Prod.exists] at h
        obtain ⟨items, ts, hs, h⟩ := h
        obtain ⟨rfl, hcon⟩ := listItems_sound hs
        cases h
        exact ⟨by simp [hc, Value.terminals], hcon⟩
      split at h
      · next hc =>
        simp only [bind_eq_ok_iff, Prod.exists] at h
        obtain ⟨fields, ts, hs, h⟩ := h
        obtain ⟨rfl, hcon⟩ := objectFields_sound hs
        cases h
        exact ⟨by simp [hc, Value.terminals], hcon⟩
      · contradiction
    · contradiction

/-- Items are read up to and including the bracket that closes their list. -/
theorem listItems_sound {constant : Bool} {n : Nat} {ts rest : Input} {vs : List Value}
    (h : listItems constant n ts = .ok (vs, rest)) :
    ts = itemTerminals vs ++ .mark ']' :: rest ∧ (constant = true → itemsConstant vs = true) := by
  cases n with
  | zero => simp [listItems] at h
  | succ n =>
    unfold listItems at h
    split at h
    · next hm =>
      cases h
      exact ⟨mark_eq_ok.mp hm, fun _ => rfl⟩
    · simp only [bind_eq_ok_iff, Prod.exists] at h
      obtain ⟨v, ts, hv, vs, ts, hvs, h⟩ := h
      obtain ⟨rfl, hcon⟩ := value_sound hv
      obtain ⟨rfl, hcons⟩ := listItems_sound hvs
      cases h
      exact ⟨by simp [itemTerminals], fun ht => by simp [itemsConstant, hcon ht, hcons ht]⟩

/-- Fields are read up to and including the brace that closes their object. -/
theorem objectFields_sound {constant : Bool} {n : Nat} {ts rest : Input}
    {fs : List (String × Value)} (h : objectFields constant n ts = .ok (fs, rest)) :
    ts = fieldTerminals fs ++ .mark '\x7d' :: rest ∧
      (constant = true → fieldsConstant fs = true) := by
  cases n with
  | zero => simp [objectFields] at h
  | succ n =>
    unfold objectFields at h
    split at h
    · next hm =>
      cases h
      exact ⟨mark_eq_ok.mp hm, fun _ => rfl⟩
    · simp only [bind_eq_ok_iff, Prod.exists] at h
      obtain ⟨key, ts, hk, u, ts, hm, v, ts, hv, fs, ts, hfs, h⟩ := h
      obtain rfl := name_eq_ok.mp hk
      obtain rfl := mark_eq_ok.mp hm
      obtain ⟨rfl, hcon⟩ := value_sound hv
      obtain ⟨rfl, hcons⟩ := objectFields_sound hfs
      cases h
      exact ⟨by simp [fieldTerminals], fun ht => by simp [fieldsConstant, hcon ht, hcons ht]⟩

end

/-! ## Arguments and directives -/

/-- Behind an opening parenthesis there is at least one argument. -/
theorem argumentList_sound {n : Nat} {as : Arguments} (h : argumentList n ts = .ok (as, rest)) :
    as ≠ [] ∧ ts = slotTerminals (as.flatMap argumentSlots) ++ .mark ')' :: rest := by
  induction n generalizing ts rest as with
  | zero => contradiction
  | succ n ih =>
    unfold argumentList at h
    simp only [bind_eq_ok_iff, Prod.exists] at h
    obtain ⟨key, ts, hk, u, ts, hm, v, ts, hv, h⟩ := h
    obtain rfl := name_eq_ok.mp hk
    obtain rfl := mark_eq_ok.mp hm
    obtain ⟨rfl, -⟩ := value_sound hv
    split at h
    · next hm =>
      cases h
      obtain rfl := mark_eq_ok.mp hm
      exact ⟨List.cons_ne_nil _ _, by simp [argumentSlots]⟩
    · simp only [bind_eq_ok_iff, Prod.exists] at h
      obtain ⟨as, ts, has, h⟩ := h
      obtain ⟨-, rfl⟩ := ih has
      cases h
      exact ⟨List.cons_ne_nil _ _, by simp [argumentSlots]⟩

/-- Parentheses are read together with what they hold, or not at all. -/
theorem arguments_sound {as : Arguments} (h : arguments ts = .ok (as, rest)) :
    ts = slotTerminals (argumentsSlots as) ++ rest := by
  unfold arguments at h
  split at h
  · next hm =>
    obtain rfl := mark_eq_ok.mp hm
    obtain ⟨hne, rfl⟩ := argumentList_sound h
    have hslots : as.flatMap argumentSlots ≠ [] := by
      cases as with
      | nil => contradiction
      | cons a as => simp [argumentSlots]
    simp [argumentsSlots, bracketed_of_ne_nil hslots]
  · cases h
    rfl

/-- Directives are read as long as an at sign comes next. -/
theorem directiveList_sound {n : Nat} {ds : List Directive}
    (h : directiveList n ts = .ok (ds, rest)) :
    ts = slotTerminals (directivesSlots ds) ++ rest := by
  induction n generalizing ts rest ds with
  | zero => contradiction
  | succ n ih =>
    unfold directiveList at h
    split at h
    · next hm =>
      obtain rfl := mark_eq_ok.mp hm
      simp only [bind_eq_ok_iff, Prod.exists] at h
      obtain ⟨s, ts, hs, as, ts, has, ds, ts, hds, h⟩ := h
      obtain rfl := name_eq_ok.mp hs
      obtain rfl := arguments_sound has
      obtain rfl := ih hds
      cases h
      simp [directivesSlots, Directive.slots]
    · cases h
      rfl

theorem directives_sound {ds : List Directive} (h : directives ts = .ok (ds, rest)) :
    ts = slotTerminals (directivesSlots ds) ++ rest := directiveList_sound h

/-! ## Types and variables -/

/-- An exclamation mark behind a type is read if it is there. -/
theorem required_sound (ts : Input) :
    ts = slotTerminals (requiredSlots (required ts).1) ++ (required ts).2 := by
  unfold required
  split
  · next hm => exact mark_eq_ok.mp hm
  · rfl

/-- What is read as a type is one, with all the brackets that belong to it. -/
theorem typeRef_sound {n : Nat} {type : TypeRef} (h : typeRef n ts = .ok (type, rest)) :
    ts = slotTerminals type.slots ++ rest := by
  induction n generalizing ts type rest with
  | zero => contradiction
  | succ n ih =>
    unfold typeRef at h
    split at h
    · next hm =>
      obtain rfl := mark_eq_ok.mp hm
      simp only [bind_eq_ok_iff, Prod.exists] at h
      obtain ⟨item, ts, hitem, u, ts, hc, h⟩ := h
      obtain rfl := ih hitem
      obtain rfl := mark_eq_ok.mp hc
      have hr := required_sound ts
      cases h
      simp [TypeRef.slots, ← hr]
    · simp only [bind_eq_ok_iff, Prod.exists] at h
      obtain ⟨s, ts, hs, h⟩ := h
      obtain rfl := name_eq_ok.mp hs
      have hr := required_sound ts
      cases h
      simp [TypeRef.slots, ← hr]

/-- A default value is read together with its equals sign, and is constant. -/
theorem initialValue_sound {initial : Option Value} (h : initialValue ts = .ok (initial, rest)) :
    ts = slotTerminals (initialSlots initial) ++ rest ∧
      ∀ v ∈ initial, v.isConstant = true := by
  unfold initialValue at h
  split at h
  · next hm =>
    obtain rfl := mark_eq_ok.mp hm
    simp only [bind_eq_ok_iff, Prod.exists] at h
    obtain ⟨v, ts, hv, h⟩ := h
    obtain ⟨rfl, hcon⟩ := value_sound hv
    cases h
    refine ⟨by simp [initialSlots], ?_⟩
    intro w hw
    cases hw
    exact hcon rfl
  · cases h
    exact ⟨rfl, fun v hv => by contradiction⟩

/-- Behind an opening parenthesis there is at least one variable, and each of them has a constant
default, if any. -/
theorem variableList_sound {n : Nat} {vs : List VariableDefinition}
    (h : variableList n ts = .ok (vs, rest)) :
    vs ≠ [] ∧ ts = slotTerminals (vs.flatMap VariableDefinition.slots) ++ .mark ')' :: rest ∧
      ∀ v ∈ vs, v.WellFormed := by
  induction n generalizing ts rest vs with
  | zero => contradiction
  | succ n ih =>
    unfold variableList at h
    simp only [bind_eq_ok_iff, Prod.exists] at h
    obtain ⟨u, ts, hm, s, ts, hs, u, ts, hc, type, ts, ht, initial, ts, hi, h⟩ := h
    obtain rfl := mark_eq_ok.mp hm
    obtain rfl := name_eq_ok.mp hs
    obtain rfl := mark_eq_ok.mp hc
    obtain rfl := typeRef_sound ht
    obtain ⟨rfl, hcon⟩ := initialValue_sound hi
    split at h
    · next hm =>
      cases h
      obtain rfl := mark_eq_ok.mp hm
      exact ⟨List.cons_ne_nil _ _, by simp [VariableDefinition.slots],
        by simpa [VariableDefinition.WellFormed] using hcon⟩
    · simp only [bind_eq_ok_iff, Prod.exists] at h
      obtain ⟨vs, ts, hvs, h⟩ := h
      obtain ⟨-, rfl, hwf⟩ := ih hvs
      cases h
      exact ⟨List.cons_ne_nil _ _, by simp [VariableDefinition.slots],
        List.forall_mem_cons.mpr ⟨hcon, hwf⟩⟩

/-- The parentheses around variables are never empty. -/
theorem variableDefinitions_sound {vs : List VariableDefinition}
    (h : variableDefinitions ts = .ok (vs, rest)) :
    ts = slotTerminals (variablesSlots vs) ++ rest ∧ ∀ v ∈ vs, v.WellFormed := by
  unfold variableDefinitions at h
  split at h
  · next hm =>
    obtain rfl := mark_eq_ok.mp hm
    obtain ⟨hne, rfl, hwf⟩ := variableList_sound h
    have hslots : vs.flatMap VariableDefinition.slots ≠ [] := by
      cases vs with
      | nil => contradiction
      | cons v vs => simp [VariableDefinition.slots]
    exact ⟨by simp [variablesSlots, bracketed_of_ne_nil hslots], hwf⟩
  · cases h
    exact ⟨rfl, by simp⟩

/-! ## Selections -/

/-- A colon behind the first name makes it the key of a second one. -/
theorem fieldName_sound {key : Option String} {s : String}
    (h : fieldName ts = .ok ((key, s), rest)) :
    ts = slotTerminals (keySlots key) ++ .name s :: rest := by
  unfold fieldName at h
  simp only [bind_eq_ok_iff, Prod.exists] at h
  obtain ⟨first, ts, hf, h⟩ := h
  obtain rfl := name_eq_ok.mp hf
  split at h
  · next hm =>
    obtain rfl := mark_eq_ok.mp hm
    simp only [bind_eq_ok_iff, Prod.exists] at h
    obtain ⟨second, ts, hs, h⟩ := h
    obtain rfl := name_eq_ok.mp hs
    cases h
    rfl
  · cases h
    rfl

mutual

/-- What is read between braces is a block, with both of its braces. -/
theorem selectionSet_sound {n : Nat} {ts rest : Input} {ss : List Selection}
    (h : selectionSet n ts = .ok (ss, rest)) :
    ts = slotTerminals (blockSlots ss) ++ rest ∧ IsBlock ss := by
  cases n with
  | zero => simp [selectionSet] at h
  | succ n =>
    unfold selectionSet at h
    simp only [bind_eq_ok_iff, Prod.exists] at h
    obtain ⟨u, ts, hm, h⟩ := h
    obtain rfl := mark_eq_ok.mp hm
    obtain ⟨rfl, hwf⟩ := selectionList_sound h
    exact ⟨by simp [slotTerminals_blockSlots hwf.1], hwf⟩

/-- Selections are read up to and including the closing brace, at least one of them. -/
theorem selectionList_sound {n : Nat} {ts rest : Input} {ss : List Selection}
    (h : selectionList n ts = .ok (ss, rest)) :
    ts = slotTerminals (selectionSlots ss) ++ .mark '\x7d' :: rest ∧ IsBlock ss := by
  cases n with
  | zero => simp [selectionList] at h
  | succ n =>
    unfold selectionList at h
    simp only [bind_eq_ok_iff, Prod.exists] at h
    obtain ⟨s, ts, hs, h⟩ := h
    obtain ⟨rfl, hwf⟩ := selection_sound hs
    split at h
    · next hm =>
      cases h
      obtain rfl := mark_eq_ok.mp hm
      exact ⟨by simp [selectionSlots], List.cons_ne_nil _ _, hwf, trivial⟩
    · simp only [bind_eq_ok_iff, Prod.exists] at h
      obtain ⟨ss, ts, hss, h⟩ := h
      obtain ⟨rfl, hwfs⟩ := selectionList_sound hss
      cases h
      exact ⟨by simp [selectionSlots], List.cons_ne_nil _ _, hwf, hwfs.2⟩

/-- The word behind three dots decides what is read: `on` never names a fragment to spread. -/
theorem selection_sound {n : Nat} {ts rest : Input} {s : Selection}
    (h : selection n ts = .ok (s, rest)) :
    ts = slotTerminals s.slots ++ rest ∧ s.WellFormed := by
  cases n with
  | zero => simp [selection] at h
  | succ n =>
    unfold selection at h
    split at h
    -- Three dots with a word behind them, three dots without one, and a field.
    · split at h
      · next hon =>
        simp only [bind_eq_ok_iff, Prod.exists] at h
        obtain ⟨onType, ts, ht, ds, ts, hds, ss, ts, hss, h⟩ := h
        obtain rfl := name_eq_ok.mp ht
        obtain rfl := directives_sound hds
        obtain ⟨rfl, hwf⟩ := selectionSet_sound hss
        cases h
        exact ⟨by simp [Selection.slots, typeConditionSlots, ← blockSlots_eq, hon], hwf⟩
      · next hon =>
        simp only [bind_eq_ok_iff, Prod.exists] at h
        obtain ⟨ds, ts, hds, h⟩ := h
        obtain rfl := directives_sound hds
        cases h
        exact ⟨by simp [Selection.slots], hon⟩
    · simp only [bind_eq_ok_iff, Prod.exists] at h
      obtain ⟨ds, ts, hds, ss, ts, hss, h⟩ := h
      obtain rfl := directives_sound hds
      obtain ⟨rfl, hwf⟩ := selectionSet_sound hss
      cases h
      exact ⟨by simp [Selection.slots, typeConditionSlots, ← blockSlots_eq], hwf⟩
    · simp only [bind_eq_ok_iff, Prod.exists] at h
      obtain ⟨key, s, ts, hf, as, ts, has, ds, ts, hds, h⟩ := h
      obtain rfl := fieldName_sound hf
      obtain rfl := arguments_sound has
      obtain rfl := directives_sound hds
      split at h
      · simp only [bind_eq_ok_iff, Prod.exists] at h
        obtain ⟨ss, ts, hss, h⟩ := h
        obtain ⟨rfl, hwf⟩ := selectionSet_sound hss
        cases h
        exact ⟨by simp [Selection.slots, ← blockSlots_eq], hwf.2⟩
      · cases h
        exact ⟨by simp [Selection.slots, selectionSlots, bracketed], trivial⟩

end

theorem selections_sound {ss : List Selection} (h : selections ts = .ok (ss, rest)) :
    ts = slotTerminals (blockSlots ss) ++ rest ∧ IsBlock ss := selectionSet_sound h

/-! ## Definitions -/

/-- Behind its keyword, an operation is read whether it has a name or not. -/
theorem operation_sound {type : OperationType} {d : Definition}
    (h : operation type ts = .ok (d, rest)) :
    .name type.keyword :: ts = slotTerminals d.slots ++ rest ∧ d.WellFormed := by
  unfold operation at h
  simp only at h
  simp only [bind_eq_ok_iff, Prod.exists] at h
  obtain ⟨vs, ts', hvs, ds, ts'', hds, ss, ts''', hss, h⟩ := h
  obtain ⟨hvs, hwf⟩ := variableDefinitions_sound hvs
  obtain rfl := directives_sound hds
  obtain ⟨rfl, hblock⟩ := selections_sound hss
  cases h
  refine ⟨?_, hwf, hblock⟩
  cases hname : name ts with
  | ok s =>
    obtain ⟨s, after⟩ := s
    rw [hname] at hvs
    obtain rfl := name_eq_ok.mp hname
    simp only at hvs
    simp [Definition.slots, hvs]
  | error e =>
    rw [hname] at hvs
    simp only at hvs
    simp [Definition.slots, hvs]

/-- Behind its keyword, a fragment is read with its type. -/
theorem fragment_sound {d : Definition} (h : fragment ts = .ok (d, rest)) :
    .name "fragment" :: ts = slotTerminals d.slots ++ rest ∧ d.WellFormed := by
  unfold fragment at h
  simp only [bind_eq_ok_iff, Prod.exists] at h
  obtain ⟨s, ts, hs, u, ts, hon, onType, ts, ht, ds, ts, hds, ss, ts, hss, h⟩ := h
  obtain rfl := name_eq_ok.mp hs
  obtain rfl := keyword_eq_ok.mp hon
  obtain rfl := name_eq_ok.mp ht
  obtain rfl := directives_sound hds
  obtain ⟨rfl, hblock⟩ := selections_sound hss
  cases h
  exact ⟨by simp [Definition.slots], hblock⟩

/-- The first word decides which definition is read, and belongs to it. -/
theorem definition_sound {d : Definition} (h : definition ts = .ok (d, rest)) :
    ts = slotTerminals d.slots ++ rest ∧ d.WellFormed := by
  unfold definition at h
  split at h
  · split at h
    · next hs => exact hs ▸ operation_sound h
    split at h
    · next hs => exact hs ▸ operation_sound h
    split at h
    · next hs => exact hs ▸ operation_sound h
    split at h
    · next hs => exact hs ▸ fragment_sound h
    · contradiction
  · simp only [bind_eq_ok_iff, Prod.exists] at h
    obtain ⟨ss, ts, hss, h⟩ := h
    obtain ⟨rfl, hblock⟩ := selections_sound hss
    cases h
    exact ⟨rfl, hblock⟩

/-- A document that has been read is derived by the grammar, and consists of what was read. -/
theorem document_sound {n : Nat} {ds : Document} (h : document n ts = .ok ds) :
    ds.WellFormed ∧ ds.terminals = ts := by
  induction n generalizing ts ds with
  | zero => contradiction
  | succ n ih =>
    unfold document at h
    simp only [bind_eq_ok_iff, Prod.exists] at h
    obtain ⟨d, ts, hd, h⟩ := h
    obtain ⟨rfl, hwf⟩ := definition_sound hd
    split at h
    · next hnil =>
      cases h
      rw [List.isEmpty_iff] at hnil
      exact ⟨⟨List.cons_ne_nil _ _, by simpa using hwf⟩,
        by simp [Document.terminals, Document.slots, hnil]⟩
    · simp only [bind_eq_ok_iff] at h
      obtain ⟨ds, hds, h⟩ := h
      obtain ⟨hwfs, rfl⟩ := ih hds
      cases h
      exact ⟨⟨List.cons_ne_nil _ _, List.forall_mem_cons.mpr ⟨hwf, hwfs.2⟩⟩,
        by simp [Document.terminals, Document.slots]⟩

end QueryDoc.Grammar.Parser
