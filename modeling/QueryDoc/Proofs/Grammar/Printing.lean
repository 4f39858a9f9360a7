import QueryDoc.Proofs.Grammar.Joining
import QueryDoc.Proofs.Grammar.Soundness
import QueryDoc.Proofs.Grammar.Strings

/-!
# QueryDoc.Proofs.Grammar.Printing

What the printer makes of a document without floats and objects whose names are names: a text
that is written in the pieces of the document, one token for each of its terminals
(`laid_print`). The variables of a subscription without a name are the one thing that is not
printed.
-/

namespace QueryDoc.Grammar

open Source (Piece)

/-! ## Strings and slots -/

/-- A string as it is printed on some line. -/
def Printed (s : String) (text : List Char) : Prop :=
  ∃ indent depth, text = (stringText indent depth s).toList

/-- Whether a terminal that is written as it is can be found again. Strings are not written as
they are. -/
def Terminal.IsPrintable : Terminal → Prop
  | mark c => isMark c = true
  | name s => isName s.toList = true
  | _ => True

/-- What is spelled as it is can be printed, strings included. -/
theorem Terminal.IsPlain.isPrintable {u : Terminal} (h : u.IsPlain) : u.IsPrintable := by
  cases u with
  | mark c => exact h
  | name s => exact h
  | _ => trivial

/-- A part of a document that can be printed: its names are names, and there are no floats and
objects in it. -/
def Slot.IsPrintable (slot : Slot) : Prop :=
  (∀ u ∈ slot.terminals, u.IsPrintable) ∧ slot.heldValues = []

/-- A name that can be printed is printed as it is. -/
theorem Slot.IsPrintable.word {s : String} (h : (Slot.word s).IsPrintable) :
    Laid style s.toList [.kept (.name s)] :=
  .word (h.1 _ List.mem_cons_self)

/-- A string is printed as one token, on whatever line it stands. -/
theorem laid_string (indent depth : Nat) (s : String) :
    Laid Printed (stringText indent depth s).toList [.kept (.string s)] := by
  have ht : WrittenAs Printed ⟨.string, (stringText indent depth s).toList⟩ (.string s) :=
    ⟨isSolid_stringText indent depth s, rfl, indent, depth, rfl⟩
  have hall := Laid.token ht (fun _ => .nil) .nil
  rwa [List.append_nil] at hall

theorem itemTexts_eq_map (indent depth : Nat) (vs : List Value) :
    itemTexts indent depth vs = vs.map (Value.text indent depth) := by
  induction vs with
  | nil => rfl
  | cons v vs ih => rw [itemTexts, ih, List.map_cons]

theorem itemPieces_eq_flatMap (vs : List Value) : itemPieces vs = vs.flatMap Value.pieces := by
  induction vs with
  | nil => rfl
  | cons v vs ih => rw [itemPieces, ih, List.flatMap_cons]

section Values

variable (indent depth : Nat)

/-! ## Values -/

mutual

/-- A value is printed in its pieces, if nothing in it is held back. -/
theorem laid_value (v : Value) (hv : ∀ u ∈ v.terminals, u.IsPrintable) (hh : v.heldValues = []) :
    Laid Printed (v.text indent depth).toList v.pieces := by
  cases v with
  | name s => exact .word (hv _ List.mem_cons_self)
  | int n =>
    rw [Value.text, String.toList_ofList]
    exact .one (u := .int n) trivial nofun
  | float x => contradiction
  | string s => exact laid_string indent depth s
  | reference s =>
    rw [Value.text, String.toList_append]
    exact .mark rfl (by decide) (.word (hv (.name s) (by simp [Value.terminals])))
  | list items =>
    have hitems := laid_items items
      (fun u hu => hv u (by simp [Value.terminals, hu])) hh
    rw [Value.text, Value.pieces, itemTexts_eq_map, itemPieces_eq_flatMap,
      String.toList_append, String.toList_append]
    exact .brackets rfl (by decide) rfl rfl (.intercalate hitems)
  | object fields => contradiction

theorem laid_items (vs : List Value) (hv : ∀ u ∈ itemTerminals vs, u.IsPrintable)
    (hh : itemHeldValues vs = []) :
    ∀ v ∈ vs, Laid Printed (v.text indent depth).toList v.pieces := by
  cases vs with
  | nil => simp
  | cons v vs =>
    rw [itemTerminals, List.forall_mem_append] at hv
    obtain ⟨hhv, hhvs⟩ := List.append_eq_nil_iff.mp hh
    exact List.forall_mem_cons.mpr ⟨laid_value v hv.1 hhv, laid_items vs hv.2 hhvs⟩

end

/-! ## Arguments, directives and variables -/

/-- What holds of slots and their brackets holds of the slots. -/
theorem forall_of_bracketed {opening closing : Char} {slots : List Slot} {P : Slot → Prop}
    (h : ∀ s ∈ bracketed opening closing slots, P s) : ∀ s ∈ slots, P s := by
  cases slots with
  | nil => simp
  | cons t ts =>
    intro s hs
    exact h s (List.mem_cons_of_mem _ (List.mem_append_left _ hs))

/-- A colon stands between the name of an argument and its value. -/
theorem laid_argument (a : String × Value) (h : ∀ s ∈ argumentSlots a, s.IsPrintable) :
    Laid Printed (a.1 ++ ": " ++ a.2.text indent depth).toList (slotPieces (argumentSlots a)) := by
  rw [argumentSlots, List.forall_mem_cons, List.forall_mem_cons, List.forall_mem_singleton] at h
  obtain ⟨hkey, -, hv⟩ := h
  rw [argumentSlots, slotPieces_word, slotPieces_mark, slotPieces_value, slotPieces_nil,
    List.append_nil]
  exact .keyed (hkey.1 _ List.mem_cons_self) (laid_value indent depth a.2 hv.1 hv.2)

/-- Arguments begin with a parenthesis, so that they may stand behind any token. -/
theorem trails_arguments (as : Arguments) (h : ∀ s ∈ argumentsSlots as, s.IsPrintable) :
    Trails Printed (argumentsText indent depth as).toList (slotPieces (argumentsSlots as)) := by
  have has : ∀ a ∈ as, ∀ s ∈ argumentSlots a, s.IsPrintable := fun a ha s hs =>
    forall_of_bracketed h s (List.mem_flatMap.mpr ⟨a, ha, hs⟩)
  refine .parentheses (fun _ => List.cons_ne_nil _ _) ?_
  rw [slotPieces_flatMap]
  exact .intercalate fun a ha => laid_argument indent depth a (has a ha)

/-- A blank stands in front of each directive. -/
theorem trails_directives (ds : List Directive) (h : ∀ s ∈ directivesSlots ds, s.IsPrintable) :
    Trails Printed (directivesText indent depth ds).toList (slotPieces (directivesSlots ds)) := by
  rw [directivesText, String.toList_join, List.flatMap_map, directivesSlots, slotPieces_flatMap]
  refine Trails.flatMap fun d hd => ?_
  have hslots : ∀ s ∈ d.slots, s.IsPrintable := fun s hs =>
    h s (List.mem_flatMap.mpr ⟨d, hd, hs⟩)
  rw [Directive.slots, List.forall_mem_cons, List.forall_mem_cons] at hslots
  obtain ⟨-, hname, has⟩ := hslots
  rw [String.toList_append, String.toList_append, List.append_assoc, Directive.slots,
    slotPieces_mark, slotPieces_word]
  have hall := hname.word.trail (trails_arguments indent depth d.arguments has)
  exact .blank rfl rfl (.mark rfl (by decide) hall)

/-- An exclamation mark behind a required type. -/
theorem trails_required (required : Bool) :
    Trails style (if required then "!" else "").toList (slotPieces (requiredSlots required)) := by
  cases required with
  | false => exact .nil
  | true => exact .mark rfl rfl (by decide) .nil

/-- A type is printed in its pieces, its exclamation marks with it. -/
theorem laid_typeRef (type : TypeRef) (h : ∀ s ∈ type.slots, s.IsPrintable) :
    Laid Printed type.text.toList (slotPieces type.slots) := by
  induction type with
  | named s required =>
    rw [TypeRef.slots, List.forall_mem_cons] at h
    rw [TypeRef.text, String.toList_append, TypeRef.slots, slotPieces_word]
    exact h.1.word.trail (trails_required required)
  | list item required ih =>
    rw [TypeRef.slots, List.forall_mem_cons, List.forall_mem_append] at h
    have hitem := Laid.brackets (o := '[') (c := ']') rfl (by decide) rfl rfl (ih h.2.1)
    rw [TypeRef.text, String.toList_append, String.toList_append, String.toList_append,
      TypeRef.slots, slotPieces_mark, slotPieces_append, slotPieces_mark]
    have hall := hitem.trail (trails_required required)
    simpa using hall

/-- A default is printed behind an equals sign, where there is one. -/
theorem trails_initial (v : Option Value) (h : ∀ s ∈ initialSlots v, s.IsPrintable) :
    Trails Printed (match v with
      | some value => " = " ++ value.text indent 0
      | none => "").toList (slotPieces (initialSlots v)) := by
  cases v with
  | none => exact .nil
  | some value =>
    rw [initialSlots, List.forall_mem_cons, List.forall_mem_singleton] at h
    have hvalue := laid_value indent 0 value h.2.1 h.2.2
    rw [String.toList_append, initialSlots, slotPieces_mark, slotPieces_value,
      slotPieces_nil, List.append_nil]
    exact .blank rfl rfl (.mark rfl (by decide) (.blank rfl hvalue))

/-- A variable begins with a stop, so that variables may stand side by side. -/
theorem trails_variable (v : VariableDefinition) (h : ∀ s ∈ v.slots, s.IsPrintable) :
    Trails Printed (v.text indent).toList (slotPieces v.slots) := by
  rw [VariableDefinition.slots, List.forall_mem_cons, List.forall_mem_cons, List.forall_mem_cons,
    List.forall_mem_append] at h
  obtain ⟨-, hname, -, htype, hinitial⟩ := h
  have hrest := (laid_typeRef v.type htype).trail (trails_initial indent v.initial hinitial)
  rw [VariableDefinition.text, VariableDefinition.slots, slotPieces_mark, slotPieces_word,
    slotPieces_mark, slotPieces_append]
  simp only [String.toList_append, List.append_assoc]
  exact .mark rfl rfl (by decide)
    (hname.word.trail (.mark rfl rfl (by decide) (.blank rfl hrest)))

/-- Nothing between texts is their concatenation. -/
theorem toList_intercalate_empty (ss : List String) :
    ("".intercalate ss).toList = ss.flatMap String.toList := by
  induction ss with
  | nil => simp
  | cons s ss ih =>
    cases ss with
    | nil => simp
    | cons t ss => simp [String.intercalate_cons_cons, ih]

section Variables

variable {vs : List VariableDefinition} (h : ∀ s ∈ variablesSlots vs, s.IsPrintable)
include h

theorem trails_of_mem_variables {v : VariableDefinition} (hv : v ∈ vs) :
    Trails Printed (v.text indent).toList (slotPieces v.slots) :=
  trails_variable indent v fun s hs => forall_of_bracketed h s (List.mem_flatMap.mpr ⟨v, hv, hs⟩)

/-- The variables of a query or a mutation have commas between them. -/
theorem trails_variables :
    Trails Printed (variablesText indent ", " vs).toList (slotPieces (variablesSlots vs)) := by
  refine .parentheses (fun _ => List.cons_ne_nil _ _) ?_
  rw [slotPieces_flatMap]
  exact .intercalate fun v hv => (trails_of_mem_variables indent h hv).laid

/-- The variables of a subscription stand side by side, and are found again all the same. -/
theorem trails_variables_side_by_side :
    Trails Printed (variablesText indent "" vs).toList (slotPieces (variablesSlots vs)) := by
  refine .parentheses (fun _ => List.cons_ne_nil _ _) ?_
  rw [slotPieces_flatMap, toList_intercalate_empty, List.flatMap_map]
  exact (Trails.flatMap fun v hv => trails_of_mem_variables indent h hv).laid

end Variables

/-! ## Selections -/

/-- A line may begin with any margin. -/
theorem laid_margin {cs : List Char} {ps : List (Piece Terminal)} (h : Laid style cs ps) :
    Laid style (margin indent depth ++ cs) ps := by
  rw [margin]
  induction indent * depth with
  | zero => exact h
  | succ n ih => exact .blank rfl ih

/-- A block ends with its brace, so that anything may follow on the next line. -/
theorem closed_block {cs : String} {ps : List (Piece Terminal)} (h : Closed style cs.toList ps) :
    Closed style (blockText indent depth cs).toList
      (.kept (.mark '\x7b') :: (ps ++ [.kept (.mark '\x7d')])) := by
  intro ds rs hds
  have hclosing : Laid style ('\x7d' :: '\n' :: ds) (.kept (.mark '\x7d') :: rs) :=
    .terminal (u := .mark '\x7d') rfl nofun (fun _ => stops_cons.mpr rfl) (.blank rfl hds)
  have hlines := h _ _ (laid_margin indent depth hclosing)
  have hall : Laid style _ _ := .mark (c := '\x7b') rfl (by decide) (.blank (c := '\n') rfl hlines)
  simpa [blockText] using hall

/-- The pieces of a block are its braces and the pieces between them. -/
theorem slotPieces_blockSlots {ss : List Selection} (h : ss ≠ []) :
    slotPieces (blockSlots ss) = .kept (.mark '\x7b') ::
      (slotPieces (selectionSlots ss) ++ [.kept (.mark '\x7d')]) := by
  rw [blockSlots_of_ne_nil h]
  simp

/-- The line end or the block behind a field. -/
theorem trails_fieldEnd (ss : List Selection)
    (h : Closed style (selectionsText indent (depth + 1) ss).toList
      (slotPieces (selectionSlots ss)))
    {ds : List Char} {rs : List (Piece Terminal)} (hds : Laid style ds rs) :
    Trails style ((if ss.isEmpty then "\n"
        else " " ++ blockText indent depth (selectionsText indent (depth + 1) ss)).toList ++ ds)
      (slotPieces (bracketed '\x7b' '\x7d' (selectionSlots ss)) ++ rs) := by
  cases ss with
  | nil => simpa [selectionSlots, bracketed] using Trails.blank (c := '\n') rfl rfl hds
  | cons s ss =>
    have hblock := closed_block indent depth h
    rw [if_neg (by simp), String.toList_append, ← blockSlots_eq,
      slotPieces_blockSlots (List.cons_ne_nil s ss)]
    exact .blank (c := ' ') rfl rfl (hblock _ _ hds)

mutual

/-- A selection is printed in its pieces, on lines of its own. -/
theorem closed_selection (s : Selection) (h : ∀ slot ∈ s.slots, slot.IsPrintable)
    (hwf : s.WellFormed) (depth : Nat) :
    Closed Printed (s.text indent depth).toList (slotPieces s.slots) := by
  cases s with
  | field key name as ds ss =>
    rw [Selection.slots, List.forall_mem_append, List.forall_mem_cons, List.forall_mem_append,
      List.forall_mem_append] at h
    obtain ⟨hkey, hname, ⟨has, hds⟩, hss⟩ := h
    intro es rs hes
    have htail := trails_fieldEnd indent depth ss
      (closed_selections ss (forall_of_bracketed hss) hwf (depth + 1)) hes
    have hline := hname.word.trail (((trails_arguments indent depth as has).append
      (trails_directives indent depth ds hds)).append htail)
    rw [Selection.text.eq_def, Selection.slots]
    cases key with
    | none => simpa [keySlots] using laid_margin indent depth hline
    | some key =>
      rw [keySlots, List.forall_mem_cons] at hkey
      have hall := hkey.1.word.trail
        (.mark (c := ':') rfl rfl (by decide) (.blank (c := ' ') rfl hline))
      simpa [keySlots] using laid_margin indent depth hall
  | spread name ds =>
    rw [Selection.slots, List.forall_mem_cons, List.forall_mem_cons] at h
    obtain ⟨-, hname, hds⟩ := h
    intro es rs hes
    have hline := hname.word.trail ((trails_directives indent depth ds hds).append
      (.blank (c := '\n') rfl rfl hes))
    rw [Selection.text, Selection.slots]
    simpa using laid_margin indent depth hline.spread
  | inlineFragment onType ds ss =>
    rw [Selection.slots, List.forall_mem_cons, List.forall_mem_append, List.forall_mem_append] at h
    obtain ⟨-, ⟨htype, hds⟩, hss⟩ := h
    intro es rs hes
    have htail := trails_fieldEnd indent depth ss
      (closed_selections ss (forall_of_bracketed hss) hwf.2 (depth + 1)) hes
    rw [if_neg (by simp [hwf.1])] at htail
    have hline := (trails_directives indent depth ds hds).append htail
    rw [Selection.text.eq_def, Selection.slots]
    cases onType with
    | none => simpa [typeConditionSlots] using laid_margin indent depth hline.laid.spread
    | some type =>
      rw [typeConditionSlots, List.forall_mem_cons, List.forall_mem_singleton] at htype
      have hon : Laid Printed "on".toList [.kept (.name "on")] := .word rfl
      have htyped := hon.trail (.blank (c := ' ') rfl rfl (htype.2.word.trail hline))
      have hspread := Laid.spread (htyped.blank (c := ' ') rfl)
      simpa [typeConditionSlots] using laid_margin indent depth hspread

/-- Selections follow each other line by line. -/
theorem closed_selections (ss : List Selection)
    (h : ∀ slot ∈ selectionSlots ss, slot.IsPrintable) (hwf : selectionsWellFormed ss)
    (depth : Nat) :
    Closed Printed (selectionsText indent depth ss).toList (slotPieces (selectionSlots ss)) := by
  cases ss with
  | nil => exact .nil
  | cons s ss =>
    rw [selectionSlots, List.forall_mem_append] at h
    rw [selectionsText, String.toList_append, selectionSlots, slotPieces_append]
    exact (closed_selection s h.1 hwf.1 depth).append (closed_selections ss h.2 hwf.2 depth)

end

/-! ## Definitions -/

/-- The block of a definition is printed in its pieces. -/
theorem closed_blockSlots {ss : List Selection} (h : ∀ slot ∈ blockSlots ss, slot.IsPrintable)
    (hwf : IsBlock ss) :
    Closed Printed (blockText indent 0 (selectionsText indent 1 ss)).toList
      (slotPieces (blockSlots ss)) := by
  rw [slotPieces_blockSlots hwf.1]
  exact closed_block indent 0 (closed_selections indent ss (forall_of_bracketed h) hwf.2 1)

/-- A blank stands in front of the name of an operation. -/
theorem trails_name (s : Option String) (h : ∀ slot ∈ s.toList.map Slot.word, slot.IsPrintable) :
    Trails style (spacedName s).toList (slotPieces (s.toList.map Slot.word)) := by
  cases s with
  | none => exact .nil
  | some s =>
    rw [spacedName, String.toList_append]
    exact .blank (c := ' ') rfl rfl (h (.word s) (by simp)).word

/-- The variables of an operation are printed in their pieces, or they are not printed. -/
theorem trails_operationVariables {type : OperationType} {s : Option String}
    {vs : List VariableDefinition} {ds : List Directive} {ss : List Selection}
    (h : ∀ slot ∈ variablesSlots vs, slot.IsPrintable)
    (hshows : (Definition.operation type s vs ds ss).ShowsVariables) :
    Trails Printed (operationVariablesText indent type s vs).toList
      (slotPieces (variablesSlots vs)) := by
  cases type with
  | subscription =>
    cases s with
    | none =>
      obtain rfl : vs = [] := hshows
      exact .nil
    | some s => exact trails_variables_side_by_side indent h
  | query => cases s <;> exact trails_variables indent h
  | mutation => cases s <;> exact trails_variables indent h

/-- A definition is printed in its pieces, if its variables are printed. -/
theorem closed_definition (d : Definition) (h : ∀ slot ∈ d.slots, slot.IsPrintable)
    (hwf : d.WellFormed) (hshows : d.ShowsVariables) :
    Closed Printed (d.text indent).toList (slotPieces d.slots) := by
  cases d with
  | selectionSet ss => exact closed_blockSlots indent h hwf
  | operation type s vs ds ss =>
    rw [Definition.slots, List.forall_mem_cons, List.forall_mem_append, List.forall_mem_append,
      List.forall_mem_append] at h
    obtain ⟨-, ⟨⟨hname, hvs⟩, hds⟩, hss⟩ := h
    have hkeyword : Laid Printed type.keyword.toList [.kept (.name type.keyword)] :=
      .word (by cases type <;> rfl)
    intro es rs hes
    have hblock := closed_blockSlots indent hss hwf.2 es rs hes
    have hall := hkeyword.trail ((((trails_name s hname).append
      (trails_operationVariables indent hvs hshows)).append
      (trails_directives indent 0 ds hds)).append (.blank (c := ' ') rfl rfl hblock))
    rw [Definition.text, Definition.slots]
    simpa using hall
  | fragment s onType ds ss =>
    rw [Definition.slots, List.forall_mem_cons, List.forall_mem_cons, List.forall_mem_cons,
      List.forall_mem_cons, List.forall_mem_append] at h
    obtain ⟨-, hname, -, htype, hds, hss⟩ := h
    have hfragment : Laid Printed "fragment".toList [.kept (.name "fragment")] := .word rfl
    have hon : Laid Printed "on".toList [.kept (.name "on")] := .word rfl
    intro es rs hes
    have hblock := closed_blockSlots indent hss hwf es rs hes
    have hrest := htype.word.trail ((trails_directives indent 0 ds hds).append
      (.blank (c := ' ') rfl rfl hblock))
    have htyped := hon.trail (.blank (c := ' ') rfl rfl hrest)
    have hnamed := hname.word.trail (.blank (c := ' ') rfl rfl htyped)
    have hall := hfragment.trail (.blank (c := ' ') rfl rfl hnamed)
    rw [Definition.text, Definition.slots]
    simpa using hall

/-- **Printing**: the text of a document without floats and objects is written in the pieces of
the document, if its names are names and all its variables are printed. -/
theorem laid_print {document : Document} (h : ∀ slot ∈ document.slots, slot.IsPrintable)
    (hwf : ∀ d ∈ document, d.WellFormed) (hshows : ∀ d ∈ document, d.ShowsVariables) :
    Laid Printed (print indent document).toList (slotPieces document.slots) := by
  rw [print]
  induction document with
  | nil => exact .nil
  | cons d ds ih =>
    rw [Document.slots, List.flatMap_cons, List.forall_mem_append] at h
    obtain ⟨hd, hds⟩ := List.forall_mem_cons.mp hwf
    obtain ⟨hsd, hsds⟩ := List.forall_mem_cons.mp hshows
    have hclosed := closed_definition indent d h.1 hd hsd
    rw [Document.slots, List.flatMap_cons, slotPieces_append]
    cases ds with
    | nil =>
      rw [List.map_singleton, String.intercalate_singleton, List.flatMap_nil, slotPieces_nil,
        List.append_nil]
      exact hclosed.laid
    | cons e ds =>
      rw [List.map_cons, List.map_cons, String.intercalate_cons_cons, String.toList_append,
        String.toList_append, List.append_assoc]
      exact hclosed _ _ (.blank (c := '\n') rfl (ih h.2 hds hsds))

end Values

end QueryDoc.Grammar
