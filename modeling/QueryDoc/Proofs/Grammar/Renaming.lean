import QueryDoc.Proofs.Grammar.Printing

/-!
# QueryDoc.Proofs.Grammar.Renaming

Documents with other names in them. A function that leaves the keywords alone makes a document
of the terminals with the new names (`terminals_rename`), and it is one of the grammar if no
other name becomes the word `on` (`Document.WellFormed.rename`).

The printer does not look at names, so that it writes other names in the same places
(`rewritten_print`). Where names stand for literals, it makes no difference which names do
(`flatMap_lexemes_print`).
-/

namespace QueryDoc.Grammar

open Slot (mark word)

/-! ## Other names -/

section Rename

variable (f : String → String)

mutual

/-- A value with other names. -/
def Value.rename : Value → Value
  | .name s => .name (f s)
  | .reference s => .reference (f s)
  | .list items => .list (renameItems items)
  | .object fields => .object (renameFields fields)
  | v => v

def renameItems : List Value → List Value
  | [] => []
  | v :: vs => v.rename :: renameItems vs

def renameFields : List (String × Value) → List (String × Value)
  | [] => []
  | (key, v) :: fields => (f key, v.rename) :: renameFields fields

end

/-- An argument under another name, with other names in its value. -/
def renameArgument (a : String × Value) : String × Value := (f a.1, a.2.rename f)

/-- A directive under another name. -/
def Directive.rename (d : Directive) : Directive := ⟨f d.name, d.arguments.map (renameArgument f)⟩

/-- A type with other names, required where it was. -/
def TypeRef.rename : TypeRef → TypeRef
  | named s required => named (f s) required
  | list item required => list item.rename required

/-- A variable under another name, also in its type and its default. -/
def VariableDefinition.rename (v : VariableDefinition) : VariableDefinition :=
  ⟨f v.name, v.type.rename f, v.initial.map (Value.rename f)⟩

mutual

/-- A selection with other names. -/
def Selection.rename : Selection → Selection
  | .field key s arguments directives selections =>
    .field (key.map f) (f s) (arguments.map (renameArgument f))
      (directives.map (Directive.rename f)) (renameSelections selections)
  | .spread s directives => .spread (f s) (directives.map (Directive.rename f))
  | .inlineFragment onType directives selections =>
    .inlineFragment (onType.map f) (directives.map (Directive.rename f))
      (renameSelections selections)

def renameSelections : List Selection → List Selection
  | [] => []
  | s :: ss => s.rename :: renameSelections ss

end

/-- A definition with other names. What kind of definition it is does not change. -/
def Definition.rename : Definition → Definition
  | selectionSet selections => selectionSet (renameSelections f selections)
  | operation type s definitions directives selections =>
    operation type (s.map f) (definitions.map (VariableDefinition.rename f))
      (directives.map (Directive.rename f)) (renameSelections f selections)
  | fragment s onType directives selections =>
    fragment (f s) (f onType) (directives.map (Directive.rename f))
      (renameSelections f selections)

/-- A document with other names. -/
def Document.rename (document : Document) : Document := document.map (Definition.rename f)

/-- Only names are replaced. -/
def Terminal.rename : Terminal → Terminal
  | name s => name (f s)
  | u => u

/-- A slot with other names, held back or not as before. -/
def Slot.rename : Slot → Slot
  | terminal t => terminal (t.rename f)
  | value constant v => value constant (v.rename f)

end Rename

/-- A name stays a name, so that kinds tell nothing about names. -/
theorem kind_rename (f : String → String) (u : Terminal) : (u.rename f).kind = u.kind := by
  cases u <;> rfl

/-! ## The terminals of renamed documents -/

/-- Whether a function leaves alone the names that the grammar is written in. -/
structure KeepsKeywords (f : String → String) : Prop where
  operation : ∀ type : OperationType, f type.keyword = type.keyword
  fragment : f "fragment" = "fragment"
  on : f "on" = "on"

section Terminals

variable {f : String → String}

mutual

/-- The terminals of a value with other names are its terminals with other names. -/
theorem terminals_renameValue (v : Value) :
    (v.rename f).terminals = v.terminals.map (Terminal.rename f) := by
  cases v with
  | list items =>
    have hitems := terminals_renameItems items
    simp [Value.rename, Value.terminals, Terminal.rename, hitems]
  | object fields =>
    have hfields := terminals_renameFields fields
    simp [Value.rename, Value.terminals, Terminal.rename, hfields]
  | _ => simp [Value.rename, Value.terminals, Terminal.rename]

theorem terminals_renameItems (vs : List Value) :
    itemTerminals (renameItems f vs) = (itemTerminals vs).map (Terminal.rename f) := by
  cases vs with
  | nil => rfl
  | cons v vs =>
    have hv := terminals_renameValue v
    have hvs := terminals_renameItems vs
    simp [renameItems, itemTerminals, hv, hvs]

theorem terminals_renameFields (fs : List (String × Value)) :
    fieldTerminals (renameFields f fs) = (fieldTerminals fs).map (Terminal.rename f) := by
  cases fs with
  | nil => rfl
  | cons field fs =>
    obtain ⟨key, v⟩ := field
    have hv := terminals_renameValue v
    have hfs := terminals_renameFields fs
    simp [renameFields, fieldTerminals, Terminal.rename, hv, hfs]

end

/-- Names are replaced slot by slot. -/
theorem slotTerminals_rename (slots : List Slot) :
    slotTerminals (slots.map (Slot.rename f)) = (slotTerminals slots).map (Terminal.rename f) := by
  induction slots with
  | nil => rfl
  | cons slot slots ih =>
    rw [List.map_cons, slotTerminals_cons, slotTerminals_cons, List.map_append, ih]
    cases slot with
    | terminal t => rfl
    | value constant v => rw [Slot.rename, Slot.terminals, Slot.terminals, terminals_renameValue]

@[simp] theorem rename_mark (c : Char) : (mark c).rename f = mark c := rfl

@[simp] theorem rename_word (s : String) : (word s).rename f = word (f s) := rfl

@[simp] theorem rename_spread : (Slot.terminal .spread).rename f = .terminal .spread := rfl

/-- Brackets are there or not as before, since as many slots stand between them. -/
theorem bracketed_rename (opening closing : Char) (slots : List Slot) :
    bracketed opening closing (slots.map (Slot.rename f)) =
      (bracketed opening closing slots).map (Slot.rename f) := by
  cases slots with
  | nil => rfl
  | cons slot slots => simp [bracketed]

theorem argumentsSlots_rename (as : Arguments) :
    argumentsSlots (as.map (renameArgument f)) = (argumentsSlots as).map (Slot.rename f) := by
  rw [argumentsSlots, argumentsSlots, ← bracketed_rename, List.flatMap_map, List.map_flatMap]
  rfl

theorem directivesSlots_rename (ds : List Directive) :
    directivesSlots (ds.map (Directive.rename f)) = (directivesSlots ds).map (Slot.rename f) := by
  rw [directivesSlots, directivesSlots, List.flatMap_map, List.map_flatMap]
  refine List.flatMap_congr fun d _ => ?_
  simp [Directive.slots, Directive.rename, argumentsSlots_rename]

/-- A type has no other terminals than names and marks. -/
theorem typeSlots_rename (type : TypeRef) :
    (type.rename f).slots = type.slots.map (Slot.rename f) := by
  have hrequired (required : Bool) :
      (requiredSlots required).map (Slot.rename f) = requiredSlots required := by
    cases required <;> rfl
  induction type with
  | named s required => simp [TypeRef.rename, TypeRef.slots, hrequired]
  | list item required ih => simp [TypeRef.rename, TypeRef.slots, hrequired, ih]

theorem variableSlots_rename (v : VariableDefinition) :
    (v.rename f).slots = v.slots.map (Slot.rename f) := by
  have hinitial (initial : Option Value) :
      initialSlots (initial.map (Value.rename f)) =
        (initialSlots initial).map (Slot.rename f) := by
    cases initial <;> rfl
  simp [VariableDefinition.rename, VariableDefinition.slots, typeSlots_rename, hinitial]

theorem variablesSlots_rename (vs : List VariableDefinition) :
    variablesSlots (vs.map (VariableDefinition.rename f)) =
      (variablesSlots vs).map (Slot.rename f) := by
  rw [variablesSlots, variablesSlots, ← bracketed_rename, List.flatMap_map, List.map_flatMap]
  exact congrArg _ (List.flatMap_congr fun v _ => variableSlots_rename v)

mutual

/-- A selection with other names has the same slots, with other names. The keywords in it stay. -/
theorem selectionSlots_rename (h : KeepsKeywords f) (s : Selection) :
    (s.rename f).slots = s.slots.map (Slot.rename f) := by
  cases s with
  | field key s as ds ss =>
    have hss := selectionsSlots_rename h ss
    cases key <;>
      simp [Selection.rename, Selection.slots, keySlots, argumentsSlots_rename,
        directivesSlots_rename, ← bracketed_rename, hss]
  | spread s ds => simp [Selection.rename, Selection.slots, directivesSlots_rename]
  | inlineFragment onType ds ss =>
    have hss := selectionsSlots_rename h ss
    cases onType <;>
      simp [Selection.rename, Selection.slots, typeConditionSlots, directivesSlots_rename,
        ← bracketed_rename, hss, h.on]

theorem selectionsSlots_rename (h : KeepsKeywords f) (ss : List Selection) :
    selectionSlots (renameSelections f ss) = (selectionSlots ss).map (Slot.rename f) := by
  cases ss with
  | nil => rfl
  | cons s ss =>
    have hs := selectionSlots_rename h s
    have hss := selectionsSlots_rename h ss
    simp [renameSelections, selectionSlots, hs, hss]

end

section Keywords

variable (h : KeepsKeywords f)
include h

theorem definitionSlots_rename (d : Definition) :
    (d.rename f).slots = d.slots.map (Slot.rename f) := by
  have hblock (ss : List Selection) :
      blockSlots (renameSelections f ss) = (blockSlots ss).map (Slot.rename f) := by
    rw [blockSlots, blockSlots, ← bracketed_rename, selectionsSlots_rename h]
  cases d with
  | selectionSet ss => exact hblock ss
  | operation type s vs ds ss =>
    cases s <;>
      simp [Definition.rename, Definition.slots, variablesSlots_rename, directivesSlots_rename,
        hblock, h.operation type]
  | fragment s onType ds ss =>
    simp [Definition.rename, Definition.slots, directivesSlots_rename, hblock, h.fragment, h.on]

/-- A document with other names has the same slots, with other names. -/
theorem slots_rename (document : Document) :
    Document.slots (document.rename f) = (Document.slots document).map (Slot.rename f) := by
  rw [Document.slots, Document.slots, Document.rename, List.flatMap_map, List.map_flatMap]
  exact List.flatMap_congr fun d _ => definitionSlots_rename h d

/-- The terminals of a document with other names. -/
theorem terminals_rename (document : Document) :
    Document.terminals (document.rename f) = document.terminals.map (Terminal.rename f) := by
  rw [Document.terminals, slots_rename h, slotTerminals_rename]
  rfl

end Keywords

/-! ## What renaming keeps -/

mutual

/-- Being constant is a matter of marks, not of names. -/
theorem isConstant_rename (v : Value) : (v.rename f).isConstant = v.isConstant := by
  cases v with
  | list items => exact itemsConstant_rename items
  | object fields => exact fieldsConstant_rename fields
  | _ => rfl

theorem itemsConstant_rename (vs : List Value) :
    itemsConstant (renameItems f vs) = itemsConstant vs := by
  cases vs with
  | nil => rfl
  | cons v vs =>
    rw [renameItems, itemsConstant, itemsConstant, isConstant_rename v, itemsConstant_rename vs]

theorem fieldsConstant_rename (fs : List (String × Value)) :
    fieldsConstant (renameFields f fs) = fieldsConstant fs := by
  cases fs with
  | nil => rfl
  | cons field fs =>
    obtain ⟨key, v⟩ := field
    rw [renameFields, fieldsConstant, fieldsConstant, isConstant_rename v,
      fieldsConstant_rename fs]

end

mutual

/-- The same floats and objects are held back, with other names in them. -/
theorem heldValues_rename (v : Value) :
    (v.rename f).heldValues = v.heldValues.map (Value.rename f) := by
  cases v with
  | list items => exact itemHeldValues_rename items
  | _ => rfl

theorem itemHeldValues_rename (vs : List Value) :
    itemHeldValues (renameItems f vs) = (itemHeldValues vs).map (Value.rename f) := by
  cases vs with
  | nil => rfl
  | cons v vs =>
    rw [renameItems, itemHeldValues, itemHeldValues, List.map_append, heldValues_rename v,
      itemHeldValues_rename vs]

end

/-- From other names the same is held back, slot by slot. -/
theorem flatMap_heldValues_rename (slots : List Slot) :
    (slots.map (Slot.rename f)).flatMap Slot.heldValues =
      (slots.flatMap Slot.heldValues).map (Value.rename f) := by
  rw [List.flatMap_map, List.map_flatMap]
  refine List.flatMap_congr fun slot _ => ?_
  cases slot with
  | terminal t => rfl
  | value constant v => exact heldValues_rename v

/-- No selection is lost. -/
theorem renameSelections_ne_nil {ss : List Selection} (h : ss ≠ []) :
    renameSelections f ss ≠ [] := by
  cases ss with
  | nil => contradiction
  | cons s ss => exact List.cons_ne_nil _ _

mutual

/-- A spread of fragments must not be named `on`. -/
theorem Selection.WellFormed.rename (hon : ∀ s, f s = "on" → s = "on") (s : Selection)
    (hwf : s.WellFormed) : (s.rename f).WellFormed := by
  cases s with
  | field key s as ds ss => exact selectionsWellFormed_rename hon ss hwf
  | spread s ds => exact fun heq => hwf (hon s heq)
  | inlineFragment onType ds ss =>
    exact ⟨renameSelections_ne_nil hwf.1, selectionsWellFormed_rename hon ss hwf.2⟩

/-- No spread gets a fragment called `on`, if no other name becomes that word. -/
theorem selectionsWellFormed_rename (hon : ∀ s, f s = "on" → s = "on") (ss : List Selection)
    (hwf : selectionsWellFormed ss) : selectionsWellFormed (renameSelections f ss) := by
  cases ss with
  | nil => trivial
  | cons s ss =>
    exact ⟨Selection.WellFormed.rename hon s hwf.1, selectionsWellFormed_rename hon ss hwf.2⟩

end

section WellFormed

variable (hon : ∀ s, f s = "on" → s = "on")
include hon

/-- A definition with other names is derived by the grammar as well. -/
theorem Definition.WellFormed.rename {d : Definition} (hwf : d.WellFormed) :
    (d.rename f).WellFormed := by
  have hblock {ss : List Selection} (hss : IsBlock ss) : IsBlock (renameSelections f ss) :=
    ⟨renameSelections_ne_nil hss.1, selectionsWellFormed_rename hon ss hss.2⟩
  cases d with
  | selectionSet ss => exact hblock hwf
  | operation type s vs ds ss =>
    refine ⟨fun w hw => ?_, hblock hwf.2⟩
    obtain ⟨v, hv, rfl⟩ := List.mem_map.mp hw
    intro value hvalue
    obtain ⟨initial, hinitial, rfl⟩ := Option.map_eq_some_iff.mp hvalue
    rw [isConstant_rename]
    exact hwf.1 v hv initial hinitial
  | fragment s onType ds ss => exact hblock hwf

/-- A document with other names is derived by the grammar as well. -/
theorem Document.WellFormed.rename {document : Document} (hwf : document.WellFormed) :
    (document.rename f).WellFormed := by
  refine ⟨by simpa [Document.rename] using hwf.1, fun d hd => ?_⟩
  obtain ⟨e, he, rfl⟩ := List.mem_map.mp hd
  exact (hwf.2 e he).rename hon

end WellFormed

/-- An operation has a name if it had one before, so that its variables are shown as before. -/
theorem Definition.ShowsVariables.rename {d : Definition} (h : d.ShowsVariables) :
    (d.rename f).ShowsVariables := by
  cases d with
  | operation type s vs ds ss =>
    cases type with
    | subscription =>
      cases s with
      | none =>
        obtain rfl : vs = [] := h
        rfl
      | some s => trivial
    | _ => trivial
  | _ => trivial

end Terminals

/-! ## Renaming and printing -/

/-- Two texts with the same blanks between their tokens: the second one has the new names of the
terminals that the first one spells. -/
inductive Rewritten (f : String → String) : List Char → List Char → List Terminal → Prop where
  | nil : Rewritten f [] [] []
  | blank {c : Char} {cs ds : List Char} {us : List Terminal} (hc : isIgnorable c = true)
    (h : Rewritten f cs ds us) : Rewritten f (c :: cs) (c :: ds) us
  | terminal (u : Terminal) {cs ds : List Char} {us : List Terminal} (h : Rewritten f cs ds us) :
    Rewritten f (u.spelling ++ cs) ((u.rename f).spelling ++ ds) (u :: us)

namespace Rewritten

variable {f : String → String} {cs ds cs' ds' : List Char} {us us' : List Terminal}

/-- Rewritten texts may be put one behind the other. -/
theorem append (h : Rewritten f cs ds us) (h' : Rewritten f cs' ds' us') :
    Rewritten f (cs ++ cs') (ds ++ ds') (us ++ us') := by
  induction h with
  | nil => exact h'
  | blank hc _ ih => exact .blank hc ih
  | terminal u _ ih =>
    rw [List.append_assoc, List.append_assoc]
    exact .terminal u ih

/-- Characters without meaning are the same in both texts. -/
theorem blanks (hcs : ∀ c ∈ cs, isIgnorable c = true) : Rewritten f cs cs [] := by
  induction cs with
  | nil => exact .nil
  | cons c cs ih =>
    obtain ⟨hc, hrest⟩ := List.forall_mem_cons.mp hcs
    exact .blank hc (ih hrest)

/-- A single terminal is spelled in both texts, with its name in each. -/
theorem one (u : Terminal) : Rewritten f u.spelling (u.rename f).spelling [u] := by
  have h := Rewritten.terminal (f := f) u .nil
  rwa [List.append_nil, List.append_nil] at h

theorem word (s : String) : Rewritten f s.toList (f s).toList [.name s] := .one (.name s)

theorem mark (c : Char) (h : Rewritten f cs ds us) :
    Rewritten f (c :: cs) (c :: ds) (.mark c :: us) := .terminal (.mark c) h

/-- Texts are rewritten one by one, with the same separator between them. -/
theorem intercalate {separator : String} {g g' : α → String} {us : α → List Terminal}
    {as : List α} (hs : ∀ c ∈ separator.toList, isIgnorable c = true)
    (h : ∀ a ∈ as, Rewritten f (g a).toList (g' a).toList (us a)) :
    Rewritten f (separator.intercalate (as.map g)).toList
      (separator.intercalate (as.map g')).toList (as.flatMap us) := by
  induction as with
  | nil => simpa using Rewritten.nil
  | cons a as ih =>
    obtain ⟨ha, has⟩ := List.forall_mem_cons.mp h
    cases as with
    | nil => simpa using ha
    | cons b as =>
      simp only [List.map_cons, String.intercalate_cons_cons, String.toList_append,
        List.append_assoc, List.flatMap_cons] at ih ⊢
      exact ha.append ((blanks hs).append (ih has))

theorem flatMap {g g' : α → List Char} {us : α → List Terminal} {as : List α}
    (h : ∀ a ∈ as, Rewritten f (g a) (g' a) (us a)) :
    Rewritten f (as.flatMap g) (as.flatMap g') (as.flatMap us) := by
  induction as with
  | nil => exact .nil
  | cons a as ih =>
    obtain ⟨ha, has⟩ := List.forall_mem_cons.mp h
    exact ha.append (ih has)

end Rewritten

namespace Spelled

variable {cs : List Char} {us : List Terminal}

/-- A spelling does not begin with a character without meaning. -/
theorem spelling_append_ne {u : Terminal} (hu : u.IsPlain) {c : Char}
    (hc : isIgnorable c = true) (cs ds : List Char) : u.spelling ++ cs ≠ c :: ds := by
  intro heq
  have hends := (isSolid_token hu).endsBefore [] fun _ => .nil
  obtain ⟨d, body, htext⟩ := List.exists_cons_of_ne_nil hends.text_ne_nil
  obtain rfl : d = c := by
    rw [show u.spelling = d :: body from htext] at heq
    exact (List.cons.inj heq).1
  rw [Source.endsBefore_iff_splitLexeme (by rw [htext, List.cons_append]),
    Source.splitLexeme_blank hc] at hends
  cases congrArg Prod.fst hends

/-- A character without meaning in front may be left away. -/
theorem of_blank {c : Char} (hc : isIgnorable c = true) (h : Spelled (c :: cs) us) :
    Spelled cs us := by
  generalize htext : c :: cs = text at h
  cases h with
  | nil => contradiction
  | blank _ h =>
    obtain ⟨rfl, rfl⟩ := List.cons.inj htext
    exact h
  | terminal hu _ _ => exact absurd htext.symm (spelling_append_ne hu hc _ _)

/-- The terminal in front of a spelled text is its first lexeme. -/
theorem of_terminal {u : Terminal} (h : Spelled (u.spelling ++ cs) (u :: us)) :
    Spelled cs us ∧
      Source.lexemes (u.spelling ++ cs) = .token u.token :: Source.lexemes cs := by
  have hu := h.isPlain u List.mem_cons_self
  generalize htext : u.spelling ++ cs = text at h
  cases h with
  | blank hc _ => exact absurd htext (spelling_append_ne hu hc _ _)
  | terminal hu hr h =>
    obtain rfl := List.append_cancel_left htext
    exact ⟨h, lexemes_terminal hu hr⟩

end Spelled

/-- Two texts that differ in their names come to the same text if their names do. -/
theorem Rewritten.flatMap_lexemes {f : String → String} {cs ds : List Char} {us : List Terminal}
    {U V : Source.Lexeme → List Char} (h : Rewritten f cs ds us) (hs : Spelled cs us)
    (hs' : Spelled ds (us.map (Terminal.rename f)))
    (hblank : ∀ cs, U (.ignored cs) = V (.ignored cs))
    (hUV : ∀ u ∈ us, U (.token u.token) = V (.token (u.rename f).token)) :
    (Source.lexemes cs).flatMap U = (Source.lexemes ds).flatMap V := by
  induction h with
  | nil => simp [Source.lexemes]
  | blank hc _ ih =>
    rw [Source.lexemes_blank hc, Source.lexemes_blank hc, List.flatMap_cons, List.flatMap_cons,
      hblank, ih (hs.of_blank hc) (hs'.of_blank hc) hUV]
  | terminal u _ ih =>
    obtain ⟨hu, hus⟩ := List.forall_mem_cons.mp hUV
    obtain ⟨hrest, hcut⟩ := hs.of_terminal
    obtain ⟨hrest', hcut'⟩ := hs'.of_terminal
    rw [hcut, hcut', List.flatMap_cons, List.flatMap_cons, hu, ih hrest hrest' hus]

section Print

variable (f : String → String) (indent depth : Nat)

/-- A part of a document in which all terminals are printed as they are spelled. -/
def Slot.IsSimple (slot : Slot) : Prop :=
  (∀ u ∈ slot.terminals, u.IsPlain) ∧ slot.heldValues = []

mutual

/-- A value is printed with other names in the same places, if nothing in it is held back. -/
theorem rewritten_value (v : Value) (hv : ∀ u ∈ v.terminals, u.IsPlain)
    (hh : v.heldValues = []) :
    Rewritten f (v.text indent depth).toList ((v.rename f).text indent depth).toList
      v.terminals := by
  cases v with
  | name s => exact .word s
  | int n =>
    have htext : (Value.int n).text indent depth = String.ofList (Decimal.intText n.toInt) := rfl
    rw [show (Value.int n).rename f = .int n from rfl, htext, String.toList_ofList]
    exact .one (.int n)
  | float x => contradiction
  | string s =>
    have htext := stringText_bare (hv (.string s) List.mem_cons_self) indent depth
    rw [show (Value.string s).rename f = .string s from rfl,
      show (Value.string s).text indent depth = stringText indent depth s from rfl, htext]
    exact .one (.string s)
  | reference s =>
    simp only [Value.rename, Value.text, String.toList_append]
    exact .mark '$' (.word s)
  | list items =>
    have hitems := rewritten_items items (fun u hu => hv u (by simp [Value.terminals, hu])) hh
    simp only [Value.rename, Value.text, String.toList_append, List.append_assoc]
    exact .mark '[' (hitems.append (.mark ']' .nil))
  | object fields => contradiction

theorem rewritten_items (vs : List Value) (hv : ∀ u ∈ itemTerminals vs, u.IsPlain)
    (hh : itemHeldValues vs = []) :
    Rewritten f (", ".intercalate (itemTexts indent depth vs)).toList
      (", ".intercalate (itemTexts indent depth (renameItems f vs))).toList
      (itemTerminals vs) := by
  cases vs with
  | nil => exact .nil
  | cons v vs =>
    rw [itemTerminals, List.forall_mem_append] at hv
    obtain ⟨hhv, hhvs⟩ := List.append_eq_nil_iff.mp hh
    have hfirst := rewritten_value v hv.1 hhv
    have hrest := rewritten_items vs hv.2 hhvs
    cases vs with
    | nil => simpa [itemTexts, renameItems, itemTerminals] using hfirst
    | cons w vs =>
      simp only [itemTexts, renameItems, String.intercalate_cons_cons, String.toList_append,
        List.append_assoc, itemTerminals] at hrest ⊢
      exact hfirst.append (.blank (c := ',') rfl (.blank (c := ' ') rfl hrest))

end

theorem slotTerminals_flatMap (g : α → List Slot) (as : List α) :
    slotTerminals (as.flatMap g) = as.flatMap fun a => slotTerminals (g a) := List.flatMap_assoc

/-- A text between parentheses, if there is anything to put there. -/
theorem Rewritten.parentheses {text text' : String} {g : α → List Slot} {as : List α}
    (hne : ∀ a, g a ≠ [])
    (h : Rewritten f text.toList text'.toList (slotTerminals (as.flatMap g))) :
    Rewritten f (if as.isEmpty then "" else "(" ++ text ++ ")").toList
      (if as.isEmpty then "" else "(" ++ text' ++ ")").toList
      (slotTerminals (bracketed '(' ')' (as.flatMap g))) := by
  cases as with
  | nil => exact .nil
  | cons a as =>
    have hslots : (a :: as).flatMap g ≠ [] := by simp [hne a]
    have hall := Rewritten.mark '(' (h.append (.mark ')' .nil))
    rw [bracketed_of_ne_nil hslots, slotTerminals_mark, slotTerminals_append]
    simpa using hall

/-- What stands between items carries no meaning. -/
theorem isIgnorable_comma : ∀ c ∈ ", ".toList, isIgnorable c = true := by
  simp [isIgnorable]

/-- Arguments are printed in the order in which they stand, whatever their names are. -/
theorem rewritten_arguments (as : Arguments) (h : ∀ s ∈ argumentsSlots as, s.IsSimple) :
    Rewritten f (argumentsText indent depth as).toList
      (argumentsText indent depth (as.map (renameArgument f))).toList
      (slotTerminals (argumentsSlots as)) := by
  have has : ∀ a ∈ as, ∀ s ∈ argumentSlots a, s.IsSimple := fun a ha s hs =>
    forall_of_bracketed h s (List.mem_flatMap.mpr ⟨a, ha, hs⟩)
  rw [argumentsText, argumentsText, List.isEmpty_map, List.map_map]
  refine .parentheses f (fun _ => List.cons_ne_nil _ _) ?_
  rw [slotTerminals_flatMap]
  refine .intercalate isIgnorable_comma fun a ha => ?_
  have hv := has a ha (.value false a.2) (by simp [argumentSlots])
  have hvalue := rewritten_value f indent depth a.2 hv.1 hv.2
  have hall := (Rewritten.word a.1).append (.mark ':' (.blank (c := ' ') rfl hvalue))
  simpa [renameArgument, argumentSlots] using hall

/-- Directives are printed with other names behind the same at signs. -/
theorem rewritten_directives (ds : List Directive) (h : ∀ s ∈ directivesSlots ds, s.IsSimple) :
    Rewritten f (directivesText indent depth ds).toList
      (directivesText indent depth (ds.map (Directive.rename f))).toList
      (slotTerminals (directivesSlots ds)) := by
  rw [directivesText, directivesText, String.toList_join, String.toList_join, List.map_map,
    List.flatMap_map, List.flatMap_map, directivesSlots, slotTerminals_flatMap]
  refine .flatMap fun d hd => ?_
  have hslots : ∀ s ∈ argumentsSlots d.arguments, s.IsSimple := fun s hs =>
    h s (List.mem_flatMap.mpr ⟨d, hd, by simp [Directive.slots, hs]⟩)
  have hall := (Rewritten.word d.name).append (rewritten_arguments f indent depth _ hslots)
  simpa [Directive.rename, Directive.slots] using
    Rewritten.blank (c := ' ') rfl (Rewritten.mark '@' hall)

/-- A type is printed with another name between the same brackets. -/
theorem rewritten_typeRef (type : TypeRef) :
    Rewritten f type.text.toList (type.rename f).text.toList (slotTerminals type.slots) := by
  have hrequired (required : Bool) : Rewritten f (if required then "!" else "").toList
      (if required then "!" else "").toList (slotTerminals (requiredSlots required)) := by
    cases required with
    | false => exact .nil
    | true => exact .mark '!' .nil
  induction type with
  | named s required =>
    simpa [TypeRef.text, TypeRef.rename, TypeRef.slots] using
      (Rewritten.word s).append (hrequired required)
  | list item required ih =>
    simpa [TypeRef.text, TypeRef.rename, TypeRef.slots] using
      Rewritten.mark '[' (ih.append (.mark ']' (hrequired required)))

/-- A variable is printed with another name, and its default with it. -/
theorem rewritten_variable (v : VariableDefinition) (h : ∀ s ∈ v.slots, s.IsSimple) :
    Rewritten f (v.text indent).toList ((v.rename f).text indent).toList
      (slotTerminals v.slots) := by
  obtain ⟨name, type, initial⟩ := v
  have htype := rewritten_typeRef f type
  cases initial with
  | none =>
    have hall := (Rewritten.word name).append (.mark ':' (.blank (c := ' ') rfl htype))
    simpa [VariableDefinition.text, VariableDefinition.rename, VariableDefinition.slots,
      initialSlots] using Rewritten.mark '$' hall
  | some value =>
    have hv := h (.value true value) (by simp [VariableDefinition.slots, initialSlots])
    have hvalue := rewritten_value f indent 0 value hv.1 hv.2
    have hinitial := Rewritten.blank (c := ' ') rfl (.mark '=' (.blank (c := ' ') rfl hvalue))
    have hall := (Rewritten.word name).append
      (.mark ':' (.blank (c := ' ') rfl (htype.append hinitial)))
    simpa [VariableDefinition.text, VariableDefinition.rename, VariableDefinition.slots,
      initialSlots] using Rewritten.mark '$' hall

/-- Variables are printed side by side or with commas between them, whatever their names are. -/
theorem rewritten_variables {separator : String} (vs : List VariableDefinition)
    (hs : ∀ c ∈ separator.toList, isIgnorable c = true)
    (h : ∀ s ∈ variablesSlots vs, s.IsSimple) :
    Rewritten f (variablesText indent separator vs).toList
      (variablesText indent separator (vs.map (VariableDefinition.rename f))).toList
      (slotTerminals (variablesSlots vs)) := by
  rw [variablesText, variablesText, List.isEmpty_map, List.map_map]
  refine .parentheses f (fun _ => List.cons_ne_nil _ _) ?_
  rw [slotTerminals_flatMap]
  refine .intercalate hs fun v hv => rewritten_variable f indent v fun s hs => ?_
  exact forall_of_bracketed h s (List.mem_flatMap.mpr ⟨v, hv, hs⟩)

/-- The margin of a line consists of blanks. -/
theorem rewritten_margin : Rewritten f (margin indent depth) (margin indent depth) [] :=
  .blanks fun c hc => by rw [List.eq_of_mem_replicate hc]; rfl

/-- The braces around lines are the same in both texts. -/
theorem rewritten_block {lines lines' : String} {us : List Terminal}
    (h : Rewritten f lines.toList lines'.toList us) :
    Rewritten f (blockText indent depth lines).toList (blockText indent depth lines').toList
      (.mark '\x7b' :: (us ++ [.mark '\x7d'])) := by
  have hclosing := (rewritten_margin f indent depth).append
    (.mark '\x7d' (.blank (c := '\n') rfl .nil))
  simpa [blockText] using Rewritten.mark '\x7b' (.blank (c := '\n') rfl (h.append hclosing))

/-- The line end or the block behind a field. -/
theorem rewritten_fieldEnd (ss : List Selection)
    (h : Rewritten f (selectionsText indent (depth + 1) ss).toList
      (selectionsText indent (depth + 1) (renameSelections f ss)).toList
      (slotTerminals (selectionSlots ss))) :
    Rewritten f
      (if ss.isEmpty then "\n"
        else " " ++ blockText indent depth (selectionsText indent (depth + 1) ss)).toList
      (if (renameSelections f ss).isEmpty then "\n"
        else " " ++ blockText indent depth
          (selectionsText indent (depth + 1) (renameSelections f ss))).toList
      (slotTerminals (bracketed '\x7b' '\x7d' (selectionSlots ss))) := by
  cases ss with
  | nil => simpa [renameSelections, selectionSlots, bracketed] using
      Rewritten.blank (f := f) (c := '\n') rfl .nil
  | cons s ss =>
    have hblock := Rewritten.blank (c := ' ') rfl (rewritten_block f indent depth h)
    rw [← blockSlots_eq, slotTerminals_blockSlots (List.cons_ne_nil s ss)]
    simpa [renameSelections] using hblock

/-- The keyword `on` stays as it is. -/
theorem KeepsKeywords.word_on (hk : KeepsKeywords f) :
    Rewritten f "on".toList "on".toList [.name "on"] := by
  have hon := Rewritten.word (f := f) "on"
  rwa [hk.on] at hon

mutual

/-- A selection is printed with other names on the same lines. -/
theorem rewritten_selection (hk : KeepsKeywords f) (s : Selection)
    (h : ∀ slot ∈ s.slots, slot.IsSimple) (hwf : s.WellFormed) (depth : Nat) :
    Rewritten f (s.text indent depth).toList ((s.rename f).text indent depth).toList
      (slotTerminals s.slots) := by
  cases s with
  | field key name as ds ss =>
    rw [Selection.slots, List.forall_mem_append, List.forall_mem_cons, List.forall_mem_append,
      List.forall_mem_append] at h
    obtain ⟨-, -, ⟨has, hds⟩, hss⟩ := h
    have hblock := rewritten_fieldEnd f indent depth ss
      (rewritten_selections hk ss (forall_of_bracketed hss) hwf (depth + 1))
    have hline := (Rewritten.word (f := f) name).append
      ((rewritten_arguments f indent depth as has).append
        ((rewritten_directives f indent depth ds hds).append hblock))
    have hmargin := rewritten_margin f indent depth
    rw [Selection.rename, Selection.text.eq_def, Selection.text.eq_def, Selection.slots]
    cases key with
    | none => simpa [keySlots] using hmargin.append hline
    | some key =>
      have hkeyed := (Rewritten.word (f := f) key).append
        (.mark ':' (.blank (c := ' ') rfl hline))
      simpa [keySlots] using hmargin.append hkeyed
  | spread name ds =>
    rw [Selection.slots, List.forall_mem_cons, List.forall_mem_cons] at h
    have hline := (Rewritten.word (f := f) name).append
      ((rewritten_directives f indent depth ds h.2.2).append (.blank (c := '\n') rfl .nil))
    have hspread := Rewritten.terminal (f := f) .spread hline
    simpa [Selection.rename, Selection.text, Selection.slots, Terminal.spelling, Terminal.rename]
      using (rewritten_margin f indent depth).append hspread
  | inlineFragment onType ds ss =>
    rw [Selection.slots, List.forall_mem_cons, List.forall_mem_append, List.forall_mem_append] at h
    obtain ⟨-, ⟨-, hds⟩, hss⟩ := h
    have hblock := rewritten_fieldEnd f indent depth ss
      (rewritten_selections hk ss (forall_of_bracketed hss) hwf.2 (depth + 1))
    -- The block of an inline fragment is never left away, with either names.
    rw [if_neg (by simp [hwf.1]), if_neg (by simp [renameSelections_ne_nil hwf.1])] at hblock
    have hline := (rewritten_directives f indent depth ds hds).append hblock
    rw [Selection.rename, Selection.text.eq_def, Selection.text.eq_def, Selection.slots]
    cases onType with
    | none =>
      have hspread := Rewritten.terminal (f := f) .spread hline
      simpa [typeConditionSlots, Terminal.spelling, Terminal.rename] using
        (rewritten_margin f indent depth).append hspread
    | some type =>
      have htyped := Rewritten.blank (c := ' ') rfl ((Rewritten.word (f := f) type).append hline)
      have hspread := Rewritten.terminal .spread (.blank (c := ' ') rfl (hk.word_on.append htyped))
      simpa [typeConditionSlots, Terminal.spelling, Terminal.rename] using
        (rewritten_margin f indent depth).append hspread

theorem rewritten_selections (hk : KeepsKeywords f) (ss : List Selection)
    (h : ∀ slot ∈ selectionSlots ss, slot.IsSimple) (hwf : selectionsWellFormed ss)
    (depth : Nat) :
    Rewritten f (selectionsText indent depth ss).toList
      (selectionsText indent depth (renameSelections f ss)).toList
      (slotTerminals (selectionSlots ss)) := by
  cases ss with
  | nil => exact .nil
  | cons s ss =>
    rw [selectionSlots, List.forall_mem_append] at h
    have hs := rewritten_selection hk s h.1 hwf.1 depth
    have hss := rewritten_selections hk ss h.2 hwf.2 depth
    simpa [selectionsText, renameSelections, selectionSlots] using hs.append hss

end

/-! ## Definitions -/

section Keywords

variable (hk : KeepsKeywords f)
include hk

/-- The block of a definition is printed with other names on the same lines. -/
theorem rewritten_blockSlots (ss : List Selection) (h : ∀ slot ∈ blockSlots ss, slot.IsSimple)
    (hwf : IsBlock ss) :
    Rewritten f (blockText indent 0 (selectionsText indent 1 ss)).toList
      (blockText indent 0 (selectionsText indent 1 (renameSelections f ss))).toList
      (slotTerminals (blockSlots ss)) := by
  rw [slotTerminals_blockSlots hwf.1]
  exact rewritten_block f indent 0
    (rewritten_selections f indent hk ss (forall_of_bracketed h) hwf.2 1)

omit hk in
/-- Variables are left out of both texts or of neither. -/
theorem rewritten_operationVariables {type : OperationType} {s : Option String}
    {vs : List VariableDefinition} {ds : List Directive} {ss : List Selection}
    (h : ∀ slot ∈ variablesSlots vs, slot.IsSimple)
    (hshows : (Definition.operation type s vs ds ss).ShowsVariables) :
    Rewritten f (operationVariablesText indent type s vs).toList
      (operationVariablesText indent type (s.map f)
        (vs.map (VariableDefinition.rename f))).toList
      (slotTerminals (variablesSlots vs)) := by
  cases type with
  | subscription =>
    cases s with
    | none =>
      obtain rfl : vs = [] := hshows
      exact .nil
    | some s => exact rewritten_variables f indent vs (by simp) h
  | query => cases s <;> exact rewritten_variables f indent vs isIgnorable_comma h
  | mutation => cases s <;> exact rewritten_variables f indent vs isIgnorable_comma h

/-- A definition is printed with other names in the same places. -/
theorem rewritten_definition (d : Definition) (h : ∀ slot ∈ d.slots, slot.IsSimple)
    (hwf : d.WellFormed) (hshows : d.ShowsVariables) :
    Rewritten f (d.text indent).toList ((d.rename f).text indent).toList
      (slotTerminals d.slots) := by
  cases d with
  | selectionSet ss => exact rewritten_blockSlots f indent hk ss h hwf
  | operation type s vs ds ss =>
    rw [Definition.slots, List.forall_mem_cons, List.forall_mem_append, List.forall_mem_append,
      List.forall_mem_append] at h
    obtain ⟨-, ⟨⟨-, hvs⟩, hds⟩, hss⟩ := h
    have hkeyword := Rewritten.word (f := f) type.keyword
    rw [hk.operation type] at hkeyword
    have hname : Rewritten f (spacedName s).toList (spacedName (s.map f)).toList
        (slotTerminals (s.toList.map Slot.word)) := by
      cases s with
      | none => exact .nil
      | some s => simpa [spacedName] using Rewritten.blank (c := ' ') rfl (.word (f := f) s)
    have hblock := Rewritten.blank (c := ' ') rfl (rewritten_blockSlots f indent hk ss hss hwf.2)
    have hall := hkeyword.append (hname.append ((rewritten_operationVariables f indent hvs
      hshows).append ((rewritten_directives f indent 0 ds hds).append hblock)))
    rw [Definition.rename, Definition.text, Definition.text, Definition.slots]
    simpa using hall
  | fragment s onType ds ss =>
    rw [Definition.slots, List.forall_mem_cons, List.forall_mem_cons, List.forall_mem_cons,
      List.forall_mem_cons, List.forall_mem_append] at h
    obtain ⟨-, -, -, -, hds, hss⟩ := h
    have hkeyword := Rewritten.word (f := f) "fragment"
    rw [hk.fragment] at hkeyword
    have hblock := Rewritten.blank (c := ' ') rfl (rewritten_blockSlots f indent hk ss hss hwf)
    have htyped := hk.word_on.append (.blank (c := ' ') rfl ((Rewritten.word (f := f) onType).append
      ((rewritten_directives f indent 0 ds hds).append hblock)))
    have hall := hkeyword.append (.blank (c := ' ') rfl ((Rewritten.word (f := f) s).append
      (.blank (c := ' ') rfl htyped)))
    rw [Definition.rename, Definition.text, Definition.text, Definition.slots]
    simpa using hall

/-- The printer writes other names in the same places. -/
theorem rewritten_print {document : Document} (h : ∀ slot ∈ document.slots, slot.IsSimple)
    (hwf : ∀ d ∈ document, d.WellFormed) (hshows : ∀ d ∈ document, d.ShowsVariables) :
    Rewritten f (print indent document).toList (print indent (document.rename f)).toList
      document.terminals := by
  rw [print, print, Document.rename, List.map_map, Document.terminals, Document.slots,
    slotTerminals_flatMap]
  refine .intercalate (by simp [isIgnorable]) fun d hd => ?_
  exact rewritten_definition f indent hk d
    (fun slot hslot => h slot (List.mem_flatMap.mpr ⟨d, hd, hslot⟩)) (hwf d hd) (hshows d hd)

/-- **Names and printing**: if other names stand for the same texts, so do the texts of the
documents with the one names and with the other ones. -/
theorem flatMap_lexemes_print {U V : Source.Lexeme → List Char} {document : Document}
    (h : ∀ slot ∈ document.slots, slot.IsSimple) (hwf : ∀ d ∈ document, d.WellFormed)
    (hshows : ∀ d ∈ document, d.ShowsVariables)
    (hs : Spelled (print indent document).toList document.terminals)
    (hs' : Spelled (print indent (document.rename f)).toList
      (Document.terminals (document.rename f)))
    (hblank : ∀ cs, U (.ignored cs) = V (.ignored cs))
    (hUV : ∀ u ∈ document.terminals, U (.token u.token) = V (.token (u.rename f).token)) :
    (Source.lexemes (print indent document).toList).flatMap U =
      (Source.lexemes (print indent (document.rename f)).toList).flatMap V := by
  rw [terminals_rename hk] at hs'
  exact (rewritten_print f indent hk h hwf hshows).flatMap_lexemes hs hs' hblank hUV

end Keywords

end Print

end QueryDoc.Grammar
