import QueryDoc.Proofs.Grammar.Literals

/-!
# QueryDoc.Proofs.Grammar.Filling

Documents with other values in them. The grammar asks nothing of a value but that it be
constant in some places, so the values of a document can be exchanged for others
(`exists_refitted`).

Two exchanges undo each other: names take the place of the floats and objects that masking
holds back (`exists_masked`), and values take the place of names again (`exists_filled`).
-/

namespace QueryDoc.Grammar

open Source (Piece nameHeld heldRuns)

/-! ## Words and labels -/

mutual

/-- The bare words in a value. -/
def Value.words : Value → List String
  | .name s => [s]
  | .list items => itemWords items
  | .object fields => fieldWords fields
  | _ => []

/-- The names that stand in items as values. -/
def itemWords : List Value → List String
  | [] => []
  | v :: vs => v.words ++ itemWords vs

/-- The names that stand in fields as values. -/
def fieldWords : List (String × Value) → List String
  | [] => []
  | (_, v) :: fields => v.words ++ fieldWords fields

end

mutual

/-- The names in a value that are no values: variables and the keys of objects. -/
def Value.labels : Value → List String
  | .reference s => [s]
  | .list items => itemLabels items
  | .object fields => fieldLabels fields
  | _ => []

/-- The other names in items. -/
def itemLabels : List Value → List String
  | [] => []
  | v :: vs => v.labels ++ itemLabels vs

/-- The keys of fields, and the other names in their values. -/
def fieldLabels : List (String × Value) → List String
  | [] => []
  | (key, v) :: fields => key :: (v.labels ++ fieldLabels fields)

end

/-- The bare words in the value of a slot. -/
def Slot.words : Slot → List String
  | terminal _ => []
  | value _ v => v.words

/-- The names in a slot that are no values. -/
def Slot.labels : Slot → List String
  | terminal (.name s) => [s]
  | terminal _ => []
  | value _ v => v.labels

/-! ## How often a name stands in a slot -/

section Count

variable (s : String)

mutual

/-- Every name in a value stands there as a value or as something else. -/
theorem count_terminals (v : Value) :
    v.terminals.count (.name s) = v.words.count s + v.labels.count s := by
  cases v with
  | name t => by_cases h : t = s <;> simp [Value.terminals, Value.words, Value.labels, h]
  | int n => rfl
  | float x => rfl
  | string t => rfl
  | reference t => by_cases h : t = s <;> simp [Value.terminals, Value.words, Value.labels, h]
  | list items =>
    have hitems := count_itemTerminals items
    simp [Value.terminals, Value.words, Value.labels, hitems]
  | object fields =>
    have hfields := count_fieldTerminals fields
    simp [Value.terminals, Value.words, Value.labels, hfields]

theorem count_itemTerminals (vs : List Value) :
    (itemTerminals vs).count (.name s) = (itemWords vs).count s + (itemLabels vs).count s := by
  cases vs with
  | nil => rfl
  | cons v vs =>
    have hv := count_terminals v
    have hvs := count_itemTerminals vs
    simp only [itemTerminals, itemWords, itemLabels, List.count_append, hv, hvs]
    omega

theorem count_fieldTerminals (fs : List (String × Value)) :
    (fieldTerminals fs).count (.name s) = (fieldWords fs).count s + (fieldLabels fs).count s := by
  cases fs with
  | nil => rfl
  | cons f fs =>
    obtain ⟨key, v⟩ := f
    have hv := count_terminals v
    have hfs := count_fieldTerminals fs
    simp only [fieldTerminals, fieldWords, fieldLabels, List.count_append, List.count_cons, hv,
      hfs]
    simp
    omega

end

/-- The names of a slot are its words and its labels. -/
theorem count_slotTerminals (slot : Slot) :
    slot.terminals.count (.name s) = slot.words.count s + slot.labels.count s := by
  cases slot with
  | terminal t =>
    cases t with
    | name t => by_cases h : t = s <;> simp [Slot.terminals, Slot.words, Slot.labels, h]
    | _ => rfl
  | value constant v => exact count_terminals s v

/-- A name that stands only once in a row of slots belongs to one of them only. -/
theorem slot_unique {slots : List Slot} (h : (slotTerminals slots).count (.name s) ≤ 1)
    {a b : Slot} (ha : a ∈ slots) (hb : b ∈ slots) (has : .name s ∈ a.terminals)
    (hbs : .name s ∈ b.terminals) : a = b := by
  induction slots with
  | nil => contradiction
  | cons slot slots ih =>
    rw [slotTerminals_cons, List.count_append] at h
    have hrest {c : Slot} (hc : c ∈ slots) (hcs : .name s ∈ c.terminals) :
        0 < (slotTerminals slots).count (.name s) :=
      List.count_pos_iff.mpr (List.mem_flatMap.mpr ⟨c, hc, hcs⟩)
    cases ha with
    | head =>
      have hpos := List.count_pos_iff.mpr has
      cases hb with
      | head => rfl
      | tail _ hb =>
        have hpos' := hrest hb hbs
        omega
    | tail _ ha =>
      have hpos := hrest ha has
      cases hb with
      | head =>
        have hpos' := List.count_pos_iff.mpr hbs
        omega
      | tail _ hb => exact ih (by omega) ha hb

/-- Such a name is not both a word and a label. -/
theorem not_mem_labels {slots : List Slot} (h : (slotTerminals slots).count (.name s) ≤ 1)
    {slot : Slot} (hslot : slot ∈ slots) (hs : s ∈ slot.words) : s ∉ slot.labels := by
  intro hl
  obtain ⟨front, back, rfl⟩ := List.append_of_mem hslot
  rw [slotTerminals_append, slotTerminals_cons, List.count_append, List.count_append,
    count_slotTerminals] at h
  have hwords := List.count_pos_iff.mpr hs
  have hlabels := List.count_pos_iff.mpr hl
  omega

/-- Every name in a slot stands there as a value or as something else. -/
theorem mem_terminals_iff (slot : Slot) :
    .name s ∈ slot.terminals ↔ s ∈ slot.words ∨ s ∈ slot.labels := by
  rw [← List.count_pos_iff, count_slotTerminals, ← List.count_pos_iff (l := slot.words),
    ← List.count_pos_iff (l := slot.labels)]
  omega

end Count

/-! ## Filling in values -/

mutual

/-- A value with values in place of those bare words that stand for one. -/
def Value.fill (σ : String → Option Value) : Value → Value
  | .name s => (σ s).getD (.name s)
  | .list items => .list (fillItems σ items)
  | .object fields => .object (fillFields σ fields)
  | v => v

/-- Fill in all items. -/
def fillItems (σ : String → Option Value) : List Value → List Value
  | [] => []
  | v :: vs => v.fill σ :: fillItems σ vs

/-- Fill in the values of all fields. Their keys stay. -/
def fillFields (σ : String → Option Value) : List (String × Value) → List (String × Value)
  | [] => []
  | (key, v) :: fields => (key, v.fill σ) :: fillFields σ fields

end

/-- Fill in the value of a slot. -/
def Slot.fill (σ : String → Option Value) : Slot → Slot
  | terminal t => terminal t
  | value constant v => value constant (v.fill σ)

/-- The terminals of the value that a name stands for; others stay. -/
def expand (σ : String → Option Value) : Terminal → List Terminal
  | .name s => ((σ s).map Value.terminals).getD [.name s]
  | t => [t]

section Terminals

variable {σ : String → Option Value}

/-- A name that nothing stands for stays. -/
theorem expand_label {s : String} (h : σ s = none) : expand σ (.name s) = [.name s] := by
  simp [expand, h]

mutual

/-- Filling in values writes their terminals in place of the names, if no label is one of
these names. -/
theorem terminals_fill (v : Value) (h : ∀ s ∈ v.labels, σ s = none) :
    (v.fill σ).terminals = v.terminals.flatMap (expand σ) := by
  cases v with
  | name s => cases hs : σ s <;> simp [Value.fill, Value.terminals, expand, hs]
  | int n => rfl
  | float x => rfl
  | string s => rfl
  | reference s =>
    have hs := h s (by simp [Value.labels])
    simp [Value.fill, Value.terminals, expand, hs]
  | list items =>
    have hitems := itemTerminals_fill items h
    simp [Value.fill, Value.terminals, expand, hitems]
  | object fields =>
    have hfields := fieldTerminals_fill fields h
    simp [Value.fill, Value.terminals, expand, hfields]

/-- Filling in items replaces names by the terminals of what they stand for. -/
theorem itemTerminals_fill (vs : List Value) (h : ∀ s ∈ itemLabels vs, σ s = none) :
    itemTerminals (fillItems σ vs) = (itemTerminals vs).flatMap (expand σ) := by
  cases vs with
  | nil => rfl
  | cons v vs =>
    have hv := terminals_fill v fun s hs => h s (List.mem_append_left _ hs)
    have hvs := itemTerminals_fill vs fun s hs => h s (List.mem_append_right _ hs)
    simp [fillItems, itemTerminals, hv, hvs]

/-- Filling in fields replaces names by the terminals of what they stand for, if no key is one of
them. -/
theorem fieldTerminals_fill (fs : List (String × Value))
    (h : ∀ s ∈ fieldLabels fs, σ s = none) :
    fieldTerminals (fillFields σ fs) = (fieldTerminals fs).flatMap (expand σ) := by
  cases fs with
  | nil => rfl
  | cons f fs =>
    obtain ⟨key, v⟩ := f
    rw [fieldLabels, List.forall_mem_cons, List.forall_mem_append] at h
    obtain ⟨hkey, hv, hfs⟩ := h
    have hv := terminals_fill v hv
    have hfs := fieldTerminals_fill fs hfs
    simp [fillFields, fieldTerminals, expand, hkey, hv, hfs]

end

/-- Filling in a slot replaces names by the terminals of what they stand for. -/
theorem terminals_slotFill (slot : Slot) (h : ∀ s ∈ slot.labels, σ s = none) :
    (slot.fill σ).terminals = slot.terminals.flatMap (expand σ) := by
  cases slot with
  | terminal t =>
    cases t with
    | name s => simp [Slot.fill, Slot.terminals, expand_label (h s (by simp [Slot.labels]))]
    | _ => rfl
  | value constant v => exact terminals_fill v h

/-- Filling in slots replaces names in their terminals, if nothing stands for a name that is no
value. -/
theorem slotTerminals_fill (slots : List Slot)
    (h : ∀ slot ∈ slots, ∀ s ∈ slot.labels, σ s = none) :
    slotTerminals (slots.map (Slot.fill σ)) = (slotTerminals slots).flatMap (expand σ) := by
  induction slots with
  | nil => rfl
  | cons slot slots ih =>
    obtain ⟨hslot, hslots⟩ := List.forall_mem_cons.mp h
    rw [List.map_cons, slotTerminals_cons, slotTerminals_cons, List.flatMap_append, ih hslots,
      terminals_slotFill slot hslot]

end Terminals

section Labels

variable {σ : String → Option Value} {s : String}

mutual

/-- Names that are no values stay where they are. -/
theorem mem_labels_fill (v : Value) (h : s ∈ v.labels) : s ∈ (v.fill σ).labels := by
  cases v with
  | reference t => exact h
  | list items => exact mem_itemLabels_fill items h
  | object fields => exact mem_fieldLabels_fill fields h
  | _ => contradiction

theorem mem_itemLabels_fill (vs : List Value) (h : s ∈ itemLabels vs) :
    s ∈ itemLabels (fillItems σ vs) := by
  cases vs with
  | nil => contradiction
  | cons v vs =>
    cases List.mem_append.mp h with
    | inl hv => exact List.mem_append_left _ (mem_labels_fill v hv)
    | inr hvs => exact List.mem_append_right _ (mem_itemLabels_fill vs hvs)

theorem mem_fieldLabels_fill (fs : List (String × Value)) (h : s ∈ fieldLabels fs) :
    s ∈ fieldLabels (fillFields σ fs) := by
  cases fs with
  | nil => contradiction
  | cons f fs =>
    obtain ⟨key, v⟩ := f
    simp only [fillFields, fieldLabels, List.mem_cons, List.mem_append] at h ⊢
    exact h.imp_right fun hrest =>
      hrest.imp (mem_labels_fill v) (mem_fieldLabels_fill fs)

end

/-- Filling in values keeps the labels. -/
theorem mem_labels_slotFill {slot : Slot} (h : s ∈ slot.labels) : s ∈ (slot.fill σ).labels := by
  cases slot with
  | terminal t => exact h
  | value constant v => exact mem_labels_fill v h

end Labels

/-! ## Constants -/

section Constants

variable {σ : String → Option Value}

mutual

/-- A filled value is constant if it was before and constants have been filled in. -/
theorem isConstant_fill_iff (v : Value) : (v.fill σ).isConstant = true ↔
    v.isConstant = true ∧ ∀ s ∈ v.words, ∀ w ∈ σ s, w.isConstant = true := by
  cases v with
  | name s => cases hs : σ s <;> simp [Value.fill, Value.words, Value.isConstant, hs]
  | int n => simp [Value.fill, Value.words]
  | float x => simp [Value.fill, Value.words]
  | string s => simp [Value.fill, Value.words]
  | reference s => simp [Value.fill, Value.words]
  | list items => exact itemsConstant_fill_iff items
  | object fields => exact fieldsConstant_fill_iff fields

/-- Items are constant after filling in exactly if they were before, and nothing filled in has a
variable. -/
theorem itemsConstant_fill_iff (vs : List Value) : itemsConstant (fillItems σ vs) = true ↔
    itemsConstant vs = true ∧ ∀ s ∈ itemWords vs, ∀ w ∈ σ s, w.isConstant = true := by
  cases vs with
  | nil => simp [fillItems, itemsConstant, itemWords]
  | cons v vs =>
    rw [fillItems, itemsConstant, itemsConstant, itemWords, Bool.and_eq_true, Bool.and_eq_true,
      isConstant_fill_iff v, itemsConstant_fill_iff vs, List.forall_mem_append]
    exact and_and_and_comm

/-- Fields are constant after filling in exactly if they were before, and nothing filled in has a
variable. -/
theorem fieldsConstant_fill_iff (fs : List (String × Value)) :
    fieldsConstant (fillFields σ fs) = true ↔
      fieldsConstant fs = true ∧ ∀ s ∈ fieldWords fs, ∀ w ∈ σ s, w.isConstant = true := by
  cases fs with
  | nil => simp [fillFields, fieldsConstant, fieldWords]
  | cons f fs =>
    obtain ⟨key, v⟩ := f
    rw [fillFields, fieldsConstant, fieldsConstant, fieldWords, Bool.and_eq_true,
      Bool.and_eq_true, isConstant_fill_iff v, fieldsConstant_fill_iff fs,
      List.forall_mem_append]
    exact and_and_and_comm

end

end Constants

/-! ## Exchanging values -/

/-- The same slot with another value, which is constant where it has to be. -/
inductive Slot.Refits : Slot → Slot → Prop where
  | terminal (t : Terminal) : Refits (.terminal t) (.terminal t)
  | value (h : constant = true → v.isConstant = true → v'.isConstant = true) :
    Refits (.value constant v) (.value constant v')

/-- A phrase can take on the values of any slots that fit its own, and keeps something. -/
def Refits (f : α → List Slot) (keeps : α → α → Prop) (a : α) : Prop :=
  ∀ slots, List.Forall₂ Slot.Refits (f a) slots → ∃ b, f b = slots ∧ keeps a b

/-- Related lists are cut in the same place. -/
theorem exists_append_of_forall₂ {R : α → β → Prop} {as as' : List α} {bs : List β}
    (h : List.Forall₂ R (as ++ as') bs) :
    ∃ front back, bs = front ++ back ∧ List.Forall₂ R as front ∧ List.Forall₂ R as' back := by
  induction as generalizing bs with
  | nil => exact ⟨[], bs, rfl, .nil, h⟩
  | cons a as ih =>
    cases h with
    | cons hab h =>
      obtain ⟨front, back, rfl, hfront, hback⟩ := ih h
      exact ⟨_ :: front, back, rfl, .cons hab hfront, hback⟩

/-- A terminal refits nothing but itself. -/
theorem exists_of_forall₂_terminal {t : Terminal} {ss slots : List Slot}
    (h : List.Forall₂ Slot.Refits (.terminal t :: ss) slots) :
    ∃ rest, slots = .terminal t :: rest ∧ List.Forall₂ Slot.Refits ss rest := by
  cases h with
  | cons hab h =>
    cases hab
    exact ⟨_, rfl, h⟩

/-- In the place of a value another one may stand, constant where it has to be. -/
theorem exists_of_forall₂_value {constant : Bool} {v : Value} {ss slots : List Slot}
    (h : List.Forall₂ Slot.Refits (.value constant v :: ss) slots) :
    ∃ v' rest, slots = .value constant v' :: rest ∧
      (constant = true → v.isConstant = true → v'.isConstant = true) ∧
      List.Forall₂ Slot.Refits ss rest := by
  cases h with
  | cons hab h =>
    cases hab with
    | value hc => exact ⟨_, _, rfl, hc, h⟩

/-- Slots without a value stay as they are. -/
theorem eq_of_forall₂_terminals {ss slots : List Slot} (hs : ∀ s ∈ ss, ∃ t, s = .terminal t)
    (h : List.Forall₂ Slot.Refits ss slots) : slots = ss := by
  induction h with
  | nil => rfl
  | @cons a b as bs hab _ ih =>
    obtain ⟨⟨t, rfl⟩, hs'⟩ := List.forall_mem_cons.mp hs
    cases hab
    rw [ih hs']

/-- Brackets stay around what is between them, absent or not. -/
theorem exists_bracketed {opening closing : Char} {ss slots : List Slot}
    (h : List.Forall₂ Slot.Refits (bracketed opening closing ss) slots) :
    ∃ inner, slots = bracketed opening closing inner ∧ List.Forall₂ Slot.Refits ss inner := by
  cases ss with
  | nil =>
    cases h
    exact ⟨[], rfl, .nil⟩
  | cons s ss =>
    obtain ⟨_, rfl, h1⟩ := exists_of_forall₂_terminal h
    obtain ⟨inner, back, rfl, hinner, hback⟩ := exists_append_of_forall₂ h1
    obtain rfl := eq_of_forall₂_terminals (by simp [Slot.mark]) hback
    have hne : inner ≠ [] := by
      cases hinner
      exact List.cons_ne_nil _ _
    exact ⟨inner, (bracketed_of_ne_nil hne).symm, hinner⟩

/-- Phrases in a row take on values one after the other. -/
theorem exists_refitted_flatMap {f : α → List Slot} {keeps : α → α → Prop} {as : List α}
    (h : ∀ a ∈ as, Refits f keeps a) {slots : List Slot}
    (hs : List.Forall₂ Slot.Refits (as.flatMap f) slots) :
    ∃ bs : List α, bs.flatMap f = slots ∧ List.Forall₂ keeps as bs := by
  induction as generalizing slots with
  | nil =>
    cases hs
    exact ⟨[], rfl, .nil⟩
  | cons a as ih =>
    obtain ⟨ha, has⟩ := List.forall_mem_cons.mp h
    rw [List.flatMap_cons] at hs
    obtain ⟨front, back, rfl, hfront, hback⟩ := exists_append_of_forall₂ hs
    obtain ⟨b, rfl, hb⟩ := ha front hfront
    obtain ⟨bs, rfl, hbs⟩ := ih has hback
    exact ⟨b :: bs, by simp, .cons hb hbs⟩

theorem forall_of_forall₂ {P : α → Prop} {Q : β → Prop} {as : List α} {bs : List β}
    (h : List.Forall₂ (fun a b => P a → Q b) as bs) (hP : ∀ a ∈ as, P a) : ∀ b ∈ bs, Q b := by
  induction h with
  | nil => simp
  | cons hab _ ih =>
    obtain ⟨ha, has⟩ := List.forall_mem_cons.mp hP
    exact List.forall_mem_cons.mpr ⟨hab ha, ih has⟩

/-- With another value, an argument is still one. -/
theorem refits_argument (a : String × Value) : Refits argumentSlots (fun _ _ => True) a := by
  intro slots h
  obtain ⟨_, rfl, h1⟩ := exists_of_forall₂_terminal h
  obtain ⟨_, rfl, h2⟩ := exists_of_forall₂_terminal h1
  obtain ⟨v, _, rfl, -, h3⟩ := exists_of_forall₂_value h2
  cases h3
  exact ⟨(a.1, v), rfl, trivial⟩

/-- With other values, arguments are still arguments. -/
theorem refits_arguments (as : Arguments) : Refits argumentsSlots (fun _ _ => True) as := by
  intro slots h
  obtain ⟨inner, rfl, h1⟩ := exists_bracketed h
  obtain ⟨bs, rfl, -⟩ := exists_refitted_flatMap (fun a _ => refits_argument a) h1
  exact ⟨bs, rfl, trivial⟩

/-- With other values, a directive is still one. -/
theorem refits_directive (d : Directive) : Refits Directive.slots (fun _ _ => True) d := by
  intro slots h
  obtain ⟨_, rfl, h1⟩ := exists_of_forall₂_terminal h
  obtain ⟨_, rfl, h2⟩ := exists_of_forall₂_terminal h1
  obtain ⟨as, rfl, -⟩ := refits_arguments d.arguments _ h2
  exact ⟨⟨d.name, as⟩, rfl, trivial⟩

/-- With other values, directives are still directives. -/
theorem refits_directives (ds : List Directive) :
    Refits directivesSlots (fun _ _ => True) ds := by
  intro slots h
  obtain ⟨es, rfl, -⟩ := exists_refitted_flatMap (fun d _ => refits_directive d) h
  exact ⟨es, rfl, trivial⟩

/-- No value stands in a type. -/
theorem slots_typeRef_terminals (type : TypeRef) : ∀ s ∈ type.slots, ∃ t, s = .terminal t := by
  have hr (required : Bool) : ∀ s ∈ requiredSlots required, ∃ t, s = .terminal t := by
    cases required <;> simp [requiredSlots, Slot.mark]
  induction type with
  | named s required => simpa [TypeRef.slots, Slot.word] using hr required
  | list item required ih =>
    intro s hs
    simp only [TypeRef.slots, List.mem_cons, List.mem_append] at hs
    obtain rfl | hs | rfl | hs := hs
    · exact ⟨_, rfl⟩
    · exact ih s hs
    · exact ⟨_, rfl⟩
    · exact hr required s hs

/-- With another default, a variable is still one. -/
theorem refits_variable (v : VariableDefinition) :
    Refits VariableDefinition.slots (fun v w => v.WellFormed → w.WellFormed) v := by
  intro slots h
  obtain ⟨_, rfl, h1⟩ := exists_of_forall₂_terminal h
  obtain ⟨_, rfl, h2⟩ := exists_of_forall₂_terminal h1
  obtain ⟨_, rfl, h3⟩ := exists_of_forall₂_terminal h2
  obtain ⟨front, back, rfl, hfront, hback⟩ := exists_append_of_forall₂ h3
  obtain rfl := eq_of_forall₂_terminals (slots_typeRef_terminals v.type) hfront
  cases hv : v.initial with
  | none =>
    rw [hv] at hback
    cases hback
    exact ⟨⟨v.name, v.type, none⟩, rfl, fun _ w hw => by contradiction⟩
  | some w =>
    rw [hv] at hback
    obtain ⟨_, rfl, h4⟩ := exists_of_forall₂_terminal hback
    obtain ⟨w', _, rfl, hc, h5⟩ := exists_of_forall₂_value h4
    cases h5
    refine ⟨⟨v.name, v.type, some w'⟩, rfl, fun hwf x hx => ?_⟩
    cases hx
    exact hc rfl (hwf w hv)

/-- With other defaults, variables are still variables, none or some as before. -/
theorem refits_variables (vs : List VariableDefinition) :
    Refits variablesSlots
      (fun vs ws => ((∀ v ∈ vs, v.WellFormed) → ∀ w ∈ ws, w.WellFormed) ∧ (vs = [] → ws = []))
      vs := by
  intro slots h
  obtain ⟨inner, rfl, h1⟩ := exists_bracketed h
  obtain ⟨ws, rfl, hws⟩ := exists_refitted_flatMap (fun v _ => refits_variable v) h1
  refine ⟨ws, rfl, forall_of_forall₂ hws, ?_⟩
  rintro rfl
  cases hws
  rfl

mutual

/-- With other values in it, a selection is still one, and derived by the grammar if it was. -/
theorem refits_selection (s : Selection) :
    Refits Selection.slots (fun s r => s.WellFormed → r.WellFormed) s := by
  intro slots h
  cases s with
  | field key name as ds ss =>
    obtain ⟨keys, back, rfl, hkeys, h1⟩ := exists_append_of_forall₂ h
    obtain ⟨_, rfl, h2⟩ := exists_of_forall₂_terminal h1
    obtain ⟨middle, back, rfl, hmiddle, hblock⟩ := exists_append_of_forall₂ h2
    obtain ⟨front, back, rfl, has, hds⟩ := exists_append_of_forall₂ hmiddle
    obtain rfl := eq_of_forall₂_terminals (by cases key <;> simp [keySlots, Slot.mark, Slot.word])
      hkeys
    obtain ⟨as, rfl, -⟩ := refits_arguments as _ has
    obtain ⟨ds, rfl, -⟩ := refits_directives ds _ hds
    obtain ⟨inner, rfl, hss⟩ := exists_bracketed hblock
    obtain ⟨rs, rfl, -, hrs⟩ := refits_selections ss inner hss
    exact ⟨.field key name as ds rs, rfl, hrs⟩
  | spread name ds =>
    obtain ⟨_, rfl, h1⟩ := exists_of_forall₂_terminal h
    obtain ⟨_, rfl, h2⟩ := exists_of_forall₂_terminal h1
    obtain ⟨ds, rfl, -⟩ := refits_directives ds _ h2
    exact ⟨.spread name ds, rfl, id⟩
  | inlineFragment onType ds ss =>
    obtain ⟨_, rfl, h1⟩ := exists_of_forall₂_terminal h
    obtain ⟨middle, back, rfl, hmiddle, hblock⟩ := exists_append_of_forall₂ h1
    obtain ⟨front, back, rfl, htype, hds⟩ := exists_append_of_forall₂ hmiddle
    obtain rfl := eq_of_forall₂_terminals
      (by cases onType <;> simp [typeConditionSlots, Slot.word]) htype
    obtain ⟨ds, rfl, -⟩ := refits_directives ds _ hds
    obtain ⟨inner, rfl, hss⟩ := exists_bracketed hblock
    obtain ⟨rs, rfl, hlen, hrs⟩ := refits_selections ss inner hss
    refine ⟨.inlineFragment onType ds rs, rfl, fun hwf => ⟨?_, hrs hwf.2⟩⟩
    exact List.ne_nil_of_length_pos (hlen ▸ List.length_pos_iff.mpr hwf.1)

/-- With other values in them, selections are still as many selections. -/
theorem refits_selections (ss : List Selection) (slots : List Slot)
    (h : List.Forall₂ Slot.Refits (selectionSlots ss) slots) :
    ∃ rs, selectionSlots rs = slots ∧ rs.length = ss.length ∧
      (selectionsWellFormed ss → selectionsWellFormed rs) := by
  cases ss with
  | nil =>
    cases h
    exact ⟨[], rfl, rfl, id⟩
  | cons s ss =>
    obtain ⟨front, back, rfl, hfront, hback⟩ := exists_append_of_forall₂ h
    obtain ⟨r, rfl, hr⟩ := refits_selection s front hfront
    obtain ⟨rs, rfl, hlen, hrs⟩ := refits_selections ss back hback
    exact ⟨r :: rs, rfl, by simp [hlen], fun hwf => ⟨hr hwf.1, hrs hwf.2⟩⟩

end

/-- With other values in it, a block is still one. -/
theorem refits_block (ss : List Selection) :
    Refits blockSlots (fun ss rs => IsBlock ss → IsBlock rs) ss := by
  intro slots h
  obtain ⟨inner, rfl, h1⟩ := exists_bracketed h
  obtain ⟨rs, rfl, hlen, hrs⟩ := refits_selections ss _ h1
  refine ⟨rs, rfl, fun hwf => ⟨?_, hrs hwf.2⟩⟩
  exact List.ne_nil_of_length_pos (hlen ▸ List.length_pos_iff.mpr hwf.1)

/-- With other values in it, a definition is still one, and shows its variables if it did. -/
theorem refits_definition (d : Definition) :
    Refits Definition.slots
      (fun d e => (d.WellFormed → e.WellFormed) ∧ (d.ShowsVariables → e.ShowsVariables)) d := by
  intro slots h
  cases d with
  | selectionSet ss =>
    obtain ⟨rs, rfl, hrs⟩ := refits_block ss slots h
    exact ⟨.selectionSet rs, rfl, hrs, id⟩
  | operation type s vs ds ss =>
    obtain ⟨_, rfl, h1⟩ := exists_of_forall₂_terminal h
    obtain ⟨front, block, rfl, hfront, hblock⟩ := exists_append_of_forall₂ h1
    obtain ⟨front, dirs, rfl, hfront, hds⟩ := exists_append_of_forall₂ hfront
    obtain ⟨names, vars, rfl, hnames, hvs⟩ := exists_append_of_forall₂ hfront
    obtain rfl := eq_of_forall₂_terminals (by simp [Slot.word]) hnames
    obtain ⟨ws, rfl, hvars, hnone⟩ := refits_variables vs _ hvs
    obtain ⟨ds, rfl, -⟩ := refits_directives ds _ hds
    obtain ⟨rs, rfl, hrs⟩ := refits_block ss _ hblock
    refine ⟨.operation type s ws ds rs, rfl, fun hwf => ⟨hvars hwf.1, hrs hwf.2⟩, ?_⟩
    cases type with
    | subscription =>
      cases s with
      | none => exact hnone
      | some s => exact id
    | _ => exact id
  | fragment s onType ds ss =>
    obtain ⟨_, rfl, h1⟩ := exists_of_forall₂_terminal h
    obtain ⟨_, rfl, h2⟩ := exists_of_forall₂_terminal h1
    obtain ⟨_, rfl, h3⟩ := exists_of_forall₂_terminal h2
    obtain ⟨_, rfl, h4⟩ := exists_of_forall₂_terminal h3
    obtain ⟨dirs, block, rfl, hds, hblock⟩ := exists_append_of_forall₂ h4
    obtain ⟨ds, rfl, -⟩ := refits_directives ds _ hds
    obtain ⟨rs, rfl, hrs⟩ := refits_block ss _ hblock
    exact ⟨.fragment s onType ds rs, rfl, hrs, id⟩

/-- A document can take on any values that are constant where they have to be. -/
theorem exists_refitted {document : Document} (hwf : document.WellFormed) {slots : List Slot}
    (h : List.Forall₂ Slot.Refits document.slots slots) :
    ∃ other : Document, other.slots = slots ∧ other.WellFormed ∧
      ((∀ d ∈ document, d.ShowsVariables) → ∀ d ∈ other, d.ShowsVariables) := by
  obtain ⟨ds, hds, hkeeps⟩ := exists_refitted_flatMap (fun d _ => refits_definition d) h
  have hlen := hkeeps.length_eq
  refine ⟨ds, hds, ⟨?_, ?_⟩, forall_of_forall₂ (hkeeps.imp fun _ _ hde => hde.2)⟩
  · exact List.ne_nil_of_length_pos (hlen ▸ List.length_pos_iff.mpr hwf.1)
  · exact forall_of_forall₂ (hkeeps.imp fun _ _ hde => hde.1) hwf.2

/-! ## Names in place of floats and objects -/

mutual

/-- The floats and outermost objects of a value that stands in no object. -/
def Value.heldValues : Value → List Value
  | .float x => [.float x]
  | .object fields => [.object fields]
  | .list items => itemHeldValues items
  | _ => []

/-- What is held back of items, in order. -/
def itemHeldValues : List Value → List Value
  | [] => []
  | v :: vs => v.heldValues ++ itemHeldValues vs

end

/-- A float or an object. -/
def Value.IsHeld (v : Value) : Prop := (∃ x, v = .float x) ∨ ∃ fields, v = .object fields

/-- What is held back of a slot. -/
def Slot.heldValues : Slot → List Value
  | terminal _ => []
  | value _ v => v.heldValues

mutual

theorem isHeld_of_mem_heldValues (v : Value) : ∀ w ∈ v.heldValues, w.IsHeld := by
  cases v with
  | float x => exact List.forall_mem_singleton.mpr (.inl ⟨x, rfl⟩)
  | object fields => exact List.forall_mem_singleton.mpr (.inr ⟨fields, rfl⟩)
  | list items => exact isHeld_of_mem_itemHeldValues items
  | _ => exact List.forall_mem_nil _

theorem isHeld_of_mem_itemHeldValues (vs : List Value) : ∀ w ∈ itemHeldValues vs, w.IsHeld := by
  cases vs with
  | nil => exact List.forall_mem_nil _
  | cons v vs =>
    exact List.forall_mem_append.mpr
      ⟨isHeld_of_mem_heldValues v, isHeld_of_mem_itemHeldValues vs⟩

end

/-- Only floats and objects are held back from a row of slots. -/
theorem isHeld_of_mem_slots {slots : List Slot} {w : Value}
    (h : w ∈ slots.flatMap Slot.heldValues) : w.IsHeld := by
  obtain ⟨slot, -, hw⟩ := List.mem_flatMap.mp h
  cases slot with
  | terminal t => contradiction
  | value constant v => exact isHeld_of_mem_heldValues v w hw

theorem heldRuns_append (ps qs : List (Piece Terminal)) :
    heldRuns (ps ++ qs) = heldRuns ps ++ heldRuns qs := List.filterMap_append

mutual

/-- The runs that are held back of a value are the terminals of its held values, in order. -/
theorem heldRuns_value (v : Value) : heldRuns v.pieces = v.heldValues.map Value.terminals := by
  cases v with
  | list items =>
    have hitems := heldRuns_items items
    rw [Value.pieces, ← List.singleton_append, heldRuns_append, heldRuns_append, hitems]
    simp [heldRuns, Value.heldValues]
  | _ => rfl

theorem heldRuns_items (vs : List Value) :
    heldRuns (itemPieces vs) = (itemHeldValues vs).map Value.terminals := by
  cases vs with
  | nil => rfl
  | cons v vs =>
    rw [itemPieces, heldRuns_append, heldRuns_value v, heldRuns_items vs, itemHeldValues,
      List.map_append]

end

/-- The runs that are held back are the floats and outermost objects. -/
theorem heldRuns_slots (slots : List Slot) :
    heldRuns (slotPieces slots) = (slots.flatMap Slot.heldValues).map Value.terminals := by
  induction slots with
  | nil => rfl
  | cons slot slots ih =>
    rw [← List.singleton_append, slotPieces_append, heldRuns_append, ih, List.flatMap_append,
      List.map_append]
    congr 1
    cases slot with
    | terminal t => rfl
    | value constant v => simp [heldRuns_value, Slot.heldValues]

mutual

/-- A value of which nothing is held back is kept whole. -/
theorem pieces_of_heldValues (v : Value) (h : v.heldValues = []) :
    v.pieces = v.terminals.map .kept := by
  cases v with
  | float x => contradiction
  | object fields => contradiction
  | list items =>
    have hitems := itemPieces_of_heldValues items h
    simp [Value.pieces, Value.terminals, hitems]
  | _ => rfl

/-- Items of which nothing is held back are kept whole. -/
theorem itemPieces_of_heldValues (vs : List Value) (h : itemHeldValues vs = []) :
    itemPieces vs = (itemTerminals vs).map .kept := by
  cases vs with
  | nil => rfl
  | cons v vs =>
    obtain ⟨hv, hvs⟩ := List.append_eq_nil_iff.mp h
    rw [itemPieces, itemTerminals, pieces_of_heldValues v hv, itemPieces_of_heldValues vs hvs,
      List.map_append]

end

/-- Where nothing is held back, each terminal is a piece. -/
theorem slotPieces_of_heldValues {slots : List Slot} (h : slots.flatMap Slot.heldValues = []) :
    slotPieces slots = (slotTerminals slots).map .kept := by
  induction slots with
  | nil => rfl
  | cons slot slots ih =>
    obtain ⟨hslot, hslots⟩ := List.append_eq_nil_iff.mp (List.flatMap_cons ▸ h)
    cases slot with
    | terminal t =>
      rw [slotPieces_terminal, slotTerminals_terminal, List.map_cons, ih hslots]
    | value constant v =>
      rw [slotPieces_value, slotTerminals_value, List.map_append, ih hslots,
        pieces_of_heldValues v hslot]

/-- The `i`-th name and those behind it stand for these values, and for nothing else that the
terminals mention. -/
structure StandsFor (σ : String → Option Value) (name : Nat → String) (i : Nat)
    (values : List Value) (ts : List Terminal) : Prop where
  held : ∀ k v, values[k]? = some v → σ (name (i + k)) = some v
  other : ∀ s, Terminal.name s ∈ ts → σ s = none

section Masked

variable {σ : String → Option Value} {name : Nat → String} {i : Nat}

/-- The first placeholders stand for what is held back in front. -/
theorem StandsFor.left {vs ws : List Value} {ts us : List Terminal}
    (h : StandsFor σ name i (vs ++ ws) (ts ++ us)) : StandsFor σ name i vs ts where
  held k v hk := h.held k v (by
    rw [List.getElem?_append_left (List.getElem?_eq_some_iff.mp hk).1]
    exact hk)
  other s hs := h.other s (List.mem_append_left _ hs)

/-- The remaining placeholders stand for what is held back behind, counted on. -/
theorem StandsFor.right {vs ws : List Value} {ts us : List Terminal}
    (h : StandsFor σ name i (vs ++ ws) (ts ++ us)) :
    StandsFor σ name (i + vs.length) ws us where
  held k v hk := by
    rw [Nat.add_assoc]
    refine h.held _ v ?_
    rw [List.getElem?_append_right (Nat.le_add_right _ _), Nat.add_sub_cancel_left]
    exact hk
  other s hs := h.other s (List.mem_append_right _ hs)

/-- The terminals of pieces with names in place of what is held back. -/
abbrev named (name : Nat → String) (i : Nat) (ps : List (Piece Terminal)) : List Terminal :=
  nameHeld (fun k => .name (name k)) i ps

mutual

/-- There is a value with names in place of the floats and objects of another one. -/
theorem exists_masked_value (name : Nat → String) (i : Nat) (v : Value) :
    ∃ v' : Value, v'.terminals = named name i v.pieces ∧ v'.heldValues = [] ∧
      (v.isConstant = true → v'.isConstant = true) ∧
      ∀ σ, StandsFor σ name i v.heldValues v.terminals → v'.fill σ = v := by
  cases v with
  | name s =>
    refine ⟨.name s, rfl, rfl, id, fun σ h => ?_⟩
    simp [Value.fill, h.other s (by simp [Value.terminals])]
  | int n => exact ⟨.int n, rfl, rfl, id, fun _ _ => rfl⟩
  | string s => exact ⟨.string s, rfl, rfl, id, fun _ _ => rfl⟩
  | reference s => exact ⟨.reference s, rfl, rfl, id, fun _ _ => rfl⟩
  | float x =>
    refine ⟨.name (name i), rfl, rfl, fun _ => rfl, fun σ h => ?_⟩
    simp [Value.fill, show σ (name i) = _ from h.held 0 _ rfl]
  | object fields =>
    refine ⟨.name (name i), rfl, rfl, fun _ => rfl, fun σ h => ?_⟩
    simp [Value.fill, show σ (name i) = _ from h.held 0 _ rfl]
  | list items =>
    obtain ⟨vs, hvs, hheld, hc, hfill⟩ := exists_masked_items name i items
    refine ⟨.list vs, ?_, hheld, hc, fun σ h => ?_⟩
    · simp [Value.terminals, Value.pieces, nameHeld, Source.nameHeld_append, hvs]
    · have h' : StandsFor σ name i (itemHeldValues items) (itemTerminals items) :=
        ⟨h.held, fun s hs => h.other s (by simp [Value.terminals, hs])⟩
      rw [Value.fill, hfill σ h']

/-- For items there are items with names in the place of what is held back, which filling in turns
into the ones there were. -/
theorem exists_masked_items (name : Nat → String) (i : Nat) (vs : List Value) :
    ∃ vs', itemTerminals vs' = named name i (itemPieces vs) ∧ itemHeldValues vs' = [] ∧
      (itemsConstant vs = true → itemsConstant vs' = true) ∧
      ∀ σ, StandsFor σ name i (itemHeldValues vs) (itemTerminals vs) →
        fillItems σ vs' = vs := by
  cases vs with
  | nil => exact ⟨[], rfl, rfl, id, fun _ _ => rfl⟩
  | cons v vs =>
    obtain ⟨v', hv, hhv, hcv, hfv⟩ := exists_masked_value name i v
    obtain ⟨vs', hvs, hhvs, hcvs, hfvs⟩ :=
      exists_masked_items name (i + v.heldValues.length) vs
    refine ⟨v' :: vs', ?_, ?_, ?_, fun σ h => ?_⟩
    · rw [itemTerminals, itemPieces, named, Source.nameHeld_append, heldRuns_value,
        List.length_map, hv, hvs]
    · rw [itemHeldValues, hhv, hhvs, List.append_nil]
    · simp only [itemsConstant, Bool.and_eq_true]
      exact fun hc => ⟨hcv hc.1, hcvs hc.2⟩
    · rw [fillItems, hfv σ h.left, hfvs σ h.right]

end

/-- There are slots with names in place of the floats and objects of others. -/
theorem exists_masked_slots (name : Nat → String) (i : Nat) (slots : List Slot) :
    ∃ slots', slotTerminals slots' = named name i (slotPieces slots) ∧
      slots'.flatMap Slot.heldValues = [] ∧ List.Forall₂ Slot.Refits slots slots' ∧
      ∀ σ, StandsFor σ name i (slots.flatMap Slot.heldValues) (slotTerminals slots) →
        slots'.map (Slot.fill σ) = slots := by
  induction slots generalizing i with
  | nil => exact ⟨[], rfl, rfl, .nil, fun _ _ => rfl⟩
  | cons slot slots ih =>
    cases slot with
    | terminal t =>
      obtain ⟨rest, hrest, hheld, hfits, hfill⟩ := ih i
      refine ⟨.terminal t :: rest, ?_, hheld, .cons (.terminal t) hfits, fun σ h => ?_⟩
      · simp [nameHeld, hrest]
      · have h' : StandsFor σ name i (slots.flatMap Slot.heldValues) (slotTerminals slots) :=
          ⟨h.held, fun s hs => h.other s (List.mem_cons_of_mem _ hs)⟩
        rw [List.map_cons, hfill σ h', Slot.fill]
    | value constant v =>
      obtain ⟨v', hv, hhv, hc, hfv⟩ := exists_masked_value name i v
      obtain ⟨rest, hrest, hheld, hfits, hfill⟩ := ih (i + v.heldValues.length)
      refine ⟨.value constant v' :: rest, ?_, ?_, .cons (.value fun _ => hc) hfits,
        fun σ h => ?_⟩
      · rw [slotTerminals_value, slotPieces_value, named, Source.nameHeld_append,
          heldRuns_value, List.length_map, hv, hrest]
      · rw [List.flatMap_cons, Slot.heldValues, hhv, hheld, List.append_nil]
      · rw [List.flatMap_cons, Slot.heldValues, slotTerminals_value] at h
        rw [List.map_cons, hfill σ h.right, Slot.fill, hfv σ h.left]

/-- A document with names in place of the floats and outermost objects of another one. -/
structure IsMasked (name : Nat → String) (document masked : Document) : Prop where
  wellFormed : masked.WellFormed
  terminals : masked.terminals = named name 0 (slotPieces document.slots)
  heldValues : masked.slots.flatMap Slot.heldValues = []
  showsVariables : (∀ d ∈ document, d.ShowsVariables) → ∀ d ∈ masked, d.ShowsVariables
  /-- Where the names stand for these values, filling them in gives the other one back. -/
  fill : ∀ σ, StandsFor σ name 0 (document.slots.flatMap Slot.heldValues) document.terminals →
    masked.slots.map (Slot.fill σ) = document.slots

/-- A document that the grammar derives has a masked one, which the grammar derives as well. -/
theorem exists_masked (name : Nat → String) {document : Document} (hwf : document.WellFormed) :
    ∃ masked : Document, IsMasked name document masked := by
  obtain ⟨slots, hterminals, hheld, hfits, hfill⟩ := exists_masked_slots name 0 document.slots
  obtain ⟨masked, rfl, hmasked, hshows⟩ := exists_refitted hwf hfits
  exact ⟨masked, hmasked, hterminals, hheld, hshows, hfill⟩

/-- There is a document with values in place of the names that stand for them, if those in
constant places are constant. -/
theorem exists_filled {document : Document} (hwf : document.WellFormed)
    (hc : ∀ v, Slot.value true v ∈ document.slots → ∀ s ∈ v.words, ∀ w ∈ σ s,
      w.isConstant = true) :
    ∃ filled : Document, filled.WellFormed ∧
      filled.slots = document.slots.map (Slot.fill σ) := by
  have hfits : List.Forall₂ Slot.Refits document.slots (document.slots.map (Slot.fill σ)) := by
    rw [List.forall₂_map_right_iff, List.forall₂_same]
    intro slot hslot
    cases slot with
    | terminal t => exact .terminal t
    | value constant v =>
      refine .value fun hconstant hv => ?_
      subst hconstant
      exact (isConstant_fill_iff v).mpr ⟨hv, hc v hslot⟩
  obtain ⟨filled, hslots, hfilled, -⟩ := exists_refitted hwf hfits
  exact ⟨filled, hfilled, hslots⟩

end Masked

/-- Where each run corresponds to the value of its name, and everything else to itself, a row
corresponds to the terminals with these values in place of the names. -/
theorem forall₂_expand {R : α → Terminal → Prop} {nameA : Nat → α} {σ : String → Option Value}
    (name : Nat → String) (i : Nat) {ps : List (Piece α)} {us : List Terminal}
    (hname : ∀ k u, R (nameA k) u → u = .name (name k))
    (h : List.Forall₂ R (nameHeld nameA i ps) us)
    (hkept : ∀ a s, .kept a ∈ ps → R a (.name s) → σ s = none)
    (hruns : ∀ k run, (heldRuns ps)[k]? = some run →
      ∃ w, σ (name (i + k)) = some w ∧ List.Forall₂ R run w.terminals) :
    List.Forall₂ R (ps.flatMap Piece.all) (us.flatMap (expand σ)) := by
  induction ps generalizing i us with
  | nil =>
    cases h
    exact .nil
  | cons p ps ih =>
    have hkept' : ∀ a s, .kept a ∈ ps → R a (.name s) → σ s = none := fun a s ha hs =>
      hkept a s (List.mem_cons_of_mem _ ha) hs
    cases p with
    | kept a =>
      cases h with
      | @cons _ u _ us hau hrest =>
        have hu : expand σ u = [u] := by
          cases u with
          | name s => exact expand_label (hkept a s List.mem_cons_self hau)
          | _ => rfl
        rw [List.flatMap_cons, List.flatMap_cons, hu]
        exact .cons hau (ih i hrest hkept' hruns)
    | held run =>
      cases h with
      | @cons _ u _ us hau hrest =>
        obtain ⟨w, hw, hreads⟩ := hruns 0 run rfl
        rw [List.flatMap_cons, List.flatMap_cons, hname i u hau, expand,
          show σ (name i) = _ from hw]
        refine Source.forall₂_append hreads (ih (i + 1) hrest hkept' fun k run' hk => ?_)
        obtain ⟨w', hw'⟩ := hruns (k + 1) run' hk
        rw [← Nat.add_assoc, Nat.add_right_comm] at hw'
        exact ⟨w', hw'⟩

/-! ## What stands in slots -/

/-- A value in a constant place is constant, and floats stand in values only. -/
def Slot.IsSound : Slot → Prop
  | value true v => v.isConstant = true
  | value false _ => True
  | terminal t => t.kind ≠ .float

/-- Brackets are sound, and so is what they hold. -/
theorem isSound_bracketed {opening closing : Char} {slots : List Slot}
    (h : ∀ s ∈ slots, s.IsSound) : ∀ s ∈ bracketed opening closing slots, s.IsSound := by
  by_cases hs : slots = []
  · simp [hs, bracketed]
  · intro s hmem
    rw [bracketed_of_ne_nil hs, List.mem_cons, List.mem_append, List.mem_singleton] at hmem
    obtain rfl | hmem | rfl := hmem
    · simp [Slot.mark, Slot.IsSound, Terminal.kind]
    · exact h s hmem
    · simp [Slot.mark, Slot.IsSound, Terminal.kind]

theorem isSound_flatMap {f : α → List Slot} {as : List α}
    (h : ∀ a ∈ as, ∀ s ∈ f a, s.IsSound) : ∀ s ∈ as.flatMap f, s.IsSound := by
  intro s hs
  obtain ⟨a, ha, hs⟩ := List.mem_flatMap.mp hs
  exact h a ha s hs

/-- Nothing has to be constant in arguments. -/
theorem isSound_arguments (as : Arguments) : ∀ s ∈ argumentsSlots as, s.IsSound := by
  refine isSound_bracketed (isSound_flatMap fun a _ => ?_)
  simp [argumentSlots, Slot.IsSound, Slot.word, Slot.mark, Terminal.kind]

/-- Nothing has to be constant in directives. -/
theorem isSound_directives (ds : List Directive) : ∀ s ∈ directivesSlots ds, s.IsSound := by
  refine isSound_flatMap fun d _ => ?_
  simpa [Directive.slots, Slot.IsSound, Slot.word, Slot.mark, Terminal.kind]
    using isSound_arguments d.arguments

theorem isSound_typeRef (type : TypeRef) : ∀ s ∈ type.slots, s.IsSound := by
  have hr (required : Bool) : ∀ s ∈ requiredSlots required, s.IsSound := by
    cases required <;> simp [requiredSlots, Slot.mark, Slot.IsSound, Terminal.kind]
  induction type with
  | named s required =>
    simpa [TypeRef.slots, Slot.word, Slot.IsSound, Terminal.kind] using hr required
  | list item required ih =>
    simp only [TypeRef.slots, List.mem_cons, List.mem_append]
    rintro s (rfl | hs | rfl | hs)
    · simp [Slot.mark, Slot.IsSound, Terminal.kind]
    · exact ih s hs
    · simp [Slot.mark, Slot.IsSound, Terminal.kind]
    · exact hr required s hs

/-- A default that the grammar derives is constant. -/
theorem isSound_variable {v : VariableDefinition} (hwf : v.WellFormed) :
    ∀ s ∈ v.slots, s.IsSound := by
  have hi : ∀ s ∈ initialSlots v.initial, s.IsSound := by
    cases hv : v.initial with
    | none => simp [initialSlots]
    | some w => simpa [initialSlots, Slot.IsSound, Slot.mark, Terminal.kind] using hwf w hv
  have htail := List.forall_mem_append.mpr ⟨isSound_typeRef v.type, hi⟩
  simpa [VariableDefinition.slots, Slot.IsSound, Slot.word, Slot.mark, Terminal.kind] using htail

mutual

/-- Nothing has to be constant in selections. -/
theorem isSound_selection (s : Selection) : ∀ slot ∈ s.slots, slot.IsSound := by
  cases s with
  | field key name as ds ss =>
    have hss : ∀ slot ∈ bracketed '\x7b' '\x7d' (selectionSlots ss), slot.IsSound :=
      isSound_bracketed (isSound_selections ss)
    have htail := List.forall_mem_append.mpr
      ⟨List.forall_mem_append.mpr ⟨isSound_arguments as, isSound_directives ds⟩, hss⟩
    cases key <;>
      simpa [Selection.slots, keySlots, Slot.IsSound, Slot.word, Slot.mark, Terminal.kind]
        using htail
  | spread name ds =>
    simpa [Selection.slots, Slot.IsSound, Slot.word, Terminal.kind] using isSound_directives ds
  | inlineFragment onType ds ss =>
    have hss : ∀ slot ∈ bracketed '\x7b' '\x7d' (selectionSlots ss), slot.IsSound :=
      isSound_bracketed (isSound_selections ss)
    have htail := List.forall_mem_append.mpr ⟨isSound_directives ds, hss⟩
    cases onType <;>
      simpa [Selection.slots, typeConditionSlots, Slot.IsSound, Slot.word, Terminal.kind]
        using htail

theorem isSound_selections (ss : List Selection) : ∀ slot ∈ selectionSlots ss, slot.IsSound := by
  cases ss with
  | nil => simp [selectionSlots]
  | cons s ss => exact List.forall_mem_append.mpr ⟨isSound_selection s, isSound_selections ss⟩

end

theorem isSound_block (ss : List Selection) : ∀ slot ∈ blockSlots ss, slot.IsSound :=
  isSound_bracketed (isSound_selections ss)

theorem isSound_definition {d : Definition} (hwf : d.WellFormed) :
    ∀ slot ∈ d.slots, slot.IsSound := by
  cases d with
  | selectionSet ss => exact isSound_block ss
  | operation type s vs ds ss =>
    have hvs : ∀ slot ∈ variablesSlots vs, slot.IsSound :=
      isSound_bracketed (isSound_flatMap fun v hv => isSound_variable (hwf.1 v hv))
    have htail := List.forall_mem_append.mpr ⟨List.forall_mem_append.mpr
      ⟨hvs, isSound_directives ds⟩, isSound_block ss⟩
    cases s <;> simpa [Definition.slots, Slot.IsSound, Slot.word, Terminal.kind] using htail
  | fragment s onType ds ss =>
    have htail := List.forall_mem_append.mpr ⟨isSound_directives ds, isSound_block ss⟩
    simpa [Definition.slots, Slot.IsSound, Slot.word, Terminal.kind] using htail

/-- In a document that the grammar derives, every value that has to be constant is. -/
theorem isSound_of_mem_slots {document : Document} (hwf : document.WellFormed) :
    ∀ slot ∈ document.slots, slot.IsSound :=
  isSound_flatMap fun d hd => isSound_definition (hwf.2 d hd)

/-- In a document that the grammar derives, values in constant places are constant. -/
theorem isConstant_of_mem_slots {document : Document} (hwf : document.WellFormed) {v : Value}
    (hv : Slot.value true v ∈ document.slots) : v.isConstant = true :=
  isSound_of_mem_slots hwf _ hv

mutual

/-- Three dots stand in no value. -/
theorem spread_not_mem_terminals (v : Value) : .spread ∉ v.terminals := by
  cases v with
  | list items =>
    have hitems := spread_not_mem_itemTerminals items
    simp [Value.terminals, hitems]
  | object fields =>
    have hfields := spread_not_mem_fieldTerminals fields
    simp [Value.terminals, hfields]
  | _ => simp [Value.terminals]

theorem spread_not_mem_itemTerminals (vs : List Value) : .spread ∉ itemTerminals vs := by
  cases vs with
  | nil => simp [itemTerminals]
  | cons v vs =>
    have hv := spread_not_mem_terminals v
    have hvs := spread_not_mem_itemTerminals vs
    simp [itemTerminals, hv, hvs]

theorem spread_not_mem_fieldTerminals (fs : List (String × Value)) :
    .spread ∉ fieldTerminals fs := by
  cases fs with
  | nil => simp [fieldTerminals]
  | cons f fs =>
    obtain ⟨key, v⟩ := f
    have hv := spread_not_mem_terminals v
    have hfs := spread_not_mem_fieldTerminals fs
    simp [fieldTerminals, hv, hfs]

end

mutual

/-- A value of which nothing is held back has no float in it: a float would be held back, in an
object or by itself. -/
theorem not_float_of_heldValues (v : Value) (h : v.heldValues = []) :
    ∀ u ∈ v.terminals, u.kind ≠ .float := by
  cases v with
  | float x => contradiction
  | object fields => contradiction
  | list items =>
    have hitems := not_float_of_itemHeldValues items h
    rw [Value.terminals, List.forall_mem_cons, List.forall_mem_append, List.forall_mem_singleton]
    exact ⟨by simp [Terminal.kind], hitems, by simp [Terminal.kind]⟩
  | _ => simp [Value.terminals, Terminal.kind]

theorem not_float_of_itemHeldValues (vs : List Value) (h : itemHeldValues vs = []) :
    ∀ u ∈ itemTerminals vs, u.kind ≠ .float := by
  cases vs with
  | nil => simp [itemTerminals]
  | cons v vs =>
    obtain ⟨hv, hvs⟩ := List.append_eq_nil_iff.mp h
    exact List.forall_mem_append.mpr
      ⟨not_float_of_heldValues v hv, not_float_of_itemHeldValues vs hvs⟩

end

/-- There is no float in slots from which none has to be held back. -/
theorem not_float_of_mem_slotTerminals {slots : List Slot} (hsound : ∀ slot ∈ slots, slot.IsSound)
    (h : slots.flatMap Slot.heldValues = []) : ∀ u ∈ slotTerminals slots, u.kind ≠ .float := by
  intro u hu
  obtain ⟨slot, hslot, hu⟩ := List.mem_flatMap.mp hu
  cases slot with
  | terminal t =>
    obtain rfl := List.mem_singleton.mp hu
    exact hsound _ hslot
  | value constant v => exact not_float_of_heldValues v (List.flatMap_eq_nil_iff.mp h _ hslot) u hu

/-- A document of which nothing is held back has no float in it. -/
theorem not_float_of_mem_terminals {document : Document} (hwf : document.WellFormed)
    (h : document.slots.flatMap Slot.heldValues = []) :
    ∀ u ∈ document.terminals, u.kind ≠ .float :=
  not_float_of_mem_slotTerminals (isSound_of_mem_slots hwf) h

end QueryDoc.Grammar
