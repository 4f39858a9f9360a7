import QueryDoc.Proofs.Grammar.Printing
import QueryDoc.Proofs.Tree
import QueryDoc.Proofs.Value

/-!
# QueryDoc.Proofs.Document

The document of the grammar that an operation is built for. Every node and fragment has its
counterpart there, and their texts are written in the pieces of these counterparts, if what the
caller passed in as a word is one: the predicates `Spellable` ask for that.

`Operation.laid_text` is the result for a whole operation. Its braces are always written, even
around nothing. What the grammar derives has a selection in each pair of braces and no spread of a
fragment called `on` (`AvoidsOn`) besides, and that is what `WellFormed` adds.
-/

namespace QueryDoc

open Grammar (Laid Trails Spelled Verbatim Slot TypeRef isBare isInner slotPieces slotTerminals
  argumentsSlots directivesSlots selectionSlots selectionsWellFormed)

/-! ## Arguments -/

/-- The arguments that are written for the arguments of a node. -/
def argumentMeanings (arguments : OrderedMap Value) : Grammar.Arguments :=
  arguments.sorted.map fun a => (a.1, a.2.meaning)

/-- Arguments with names, and with values that can be found again. -/
def ArgumentsSpellable (inner : Char → Bool) (arguments : OrderedMap Value) : Prop :=
  ∀ a ∈ arguments.entries, isName a.1.toList = true ∧ a.2.Spellable inner

/-! ## Conditions -/

/-- Conditions on variables that can be read. -/
def Conditions.WellFormed (c : Conditions) : Prop :=
  (∀ v ∈ c.includeIf.entries, isName v.2.name.toList = true) ∧
    ∀ v ∈ c.skipIf.entries, isName v.2.name.toList = true

theorem wellFormed_emptyConditions : Conditions.empty.WellFormed :=
  ⟨List.forall_mem_nil _, List.forall_mem_nil _⟩

/-- A condition as a directive with its variable. -/
def conditionMeaning (name : String) (v : VariableRef) : Grammar.Directive :=
  ⟨name, [("if", .reference v.name)]⟩

/-- The directives of a field. -/
def Conditions.directives (c : Conditions) (key : String) : List Grammar.Directive :=
  match c.skipIf.get? key with
  | some v => [conditionMeaning "skip" v]
  | none => ((c.includeIf.get? key).map (conditionMeaning "include")).toList

/-! ## Nodes -/

/-- A plain field with its key, both names, or a spread of any name. -/
def FieldSpellable (key name : String) : Prop :=
  (isName key.toList = true ∧ isName name.toList = true) ∨
    ∃ fragment, name = "..." ++ fragment ∧ isName fragment.toList = true

section Spellable

variable (inner : Char → Bool)

mutual

/-- A node whose words are names, and whose values can be found again. -/
def Node.Spellable : Node → Prop
  | ⟨typeName, arguments, conditions, ⟨entries⟩, _, _, _, _⟩ =>
    isName typeName.toList = true ∧ ArgumentsSpellable inner arguments ∧
      conditions.WellFormed ∧ entriesSpellable entries

/-- Whether an entry can be spelled under its key. -/
def Entry.Spellable (key : String) : Entry → Prop
  | .field name => FieldSpellable key name
  | .node explicitKey n => (explicitKey = true → isName key.toList = true) ∧ n.Spellable

/-- Whether all entries can be spelled under their keys. -/
def entriesSpellable : List (String × Entry) → Prop
  | [] => True
  | (key, e) :: rest => e.Spellable key ∧ entriesSpellable rest

end

end Spellable

mutual

/-- Whether nothing in a node spreads a fragment called `on`, which is no fragment's name. -/
def Node.AvoidsOn : Node → Prop
  | ⟨_, _, _, ⟨entries⟩, _, _, _, _⟩ => entriesAvoidOn entries

def Entry.AvoidsOn : Entry → Prop
  | .field name => name ≠ "...on"
  | .node _ n => n.AvoidsOn

def entriesAvoidOn : List (String × Entry) → Prop
  | [] => True
  | (_, e) :: rest => e.AvoidsOn ∧ entriesAvoidOn rest

end

/-! ## Counterparts in the grammar -/

/-- A field in front of its selections, behind its key if that differs. -/
def fieldMeaning (conditions : Conditions) (key name : String) : Grammar.Selection :=
  if isSpread name then .spread (String.ofList (name.toList.drop 3)) []
  else .field (if key = name then none else some key) name [] (conditions.directives key) []

mutual

/-- The field of the grammar that is written for a node. -/
def Node.meaning : Node → (key : Option String) → List Grammar.Directive → Grammar.Selection
  | ⟨typeName, arguments, conditions, ⟨entries⟩, _, _, _, _⟩, key, directives =>
    .field key typeName (argumentMeanings arguments) directives
      ((sortByKey (entryMeanings .always conditions entries)).map Prod.snd)

/-- The selection that is written for what stands under a key. -/
def Entry.meaning (style : KeyStyle) (conditions : Conditions) (key : String) :
    Entry → Grammar.Selection
  | .field name => fieldMeaning conditions key name
  | .node explicitKey n =>
    n.meaning (if style.writes explicitKey key n.typeName then some key else none)
      (conditions.directives key)

/-- The selections of entries, beside their keys. -/
def entryMeanings (style : KeyStyle) (conditions : Conditions) :
    List (String × Entry) → List (String × Grammar.Selection)
  | [] => []
  | (key, e) :: rest =>
    (key, e.meaning style conditions key) :: entryMeanings style conditions rest

end

/-- The selections of a set in the order of their keys. -/
def SelectionSet.meaning (style : KeyStyle) (conditions : Conditions) (s : SelectionSet) :
    List Grammar.Selection :=
  (sortByKey (entryMeanings style conditions s.entries)).map Prod.snd

theorem entryMeanings_eq_map (style : KeyStyle) (conditions : Conditions)
    (es : List (String × Entry)) :
    entryMeanings style conditions es =
      es.map fun e => (e.1, e.2.meaning style conditions e.1) := by
  induction es with
  | nil => rfl
  | cons e es ih => rw [entryMeanings, ih, List.map_cons]

/-- A name has no dots. -/
theorem isSpread_of_isName {name : String} (h : isName name.toList = true) :
    isSpread name = false := by
  obtain ⟨c, cs, hcs⟩ := List.exists_cons_of_ne_nil (ne_nil_of_isName h)
  rw [hcs, isName, Bool.and_eq_true] at h
  have hdot := (isNameStart_cases h.1).2.2.2.1
  rw [isSpread, hcs]
  simp [List.isPrefixOf, hdot.symm]

theorem isSpread_append (fragment : String) : isSpread ("..." ++ fragment) = true := by
  rw [isSpread, String.toList_append]
  rfl

/-- A field that begins with three dots spreads the fragment named behind them. -/
theorem eq_spread_of_isSpread {name : String} (h : isSpread name = true) :
    name = "..." ++ String.ofList (name.toList.drop 3) := by
  obtain ⟨rest, hrest⟩ := List.isPrefixOf_iff_prefix.mp h
  simp [← String.toList_inj, ← hrest]

theorem drop_spread (fragment : String) :
    String.ofList (("..." ++ fragment).toList.drop 3) = fragment := by
  rw [String.toList_append]
  exact String.ofList_toList

theorem selectionsWellFormed_iff {ss : List Grammar.Selection} :
    selectionsWellFormed ss ↔ ∀ s ∈ ss, s.WellFormed := by
  induction ss with
  | nil => simp [selectionsWellFormed]
  | cons s ss ih => rw [selectionsWellFormed, ih, List.forall_mem_cons]

/-- A field without dots in its name is derived, and so is a spread of any fragment but `on`. -/
theorem wellFormed_fieldMeaning {conditions : Conditions} {key name : String}
    (h : name ≠ "...on") : (fieldMeaning conditions key name).WellFormed := by
  unfold fieldMeaning
  split
  · next hspread =>
    intro hon
    rw [eq_spread_of_isSpread hspread, hon] at h
    exact h rfl
  · trivial

/-- The order of the keys does not matter for which selections there are. -/
theorem SelectionSet.mem_meaning {style : KeyStyle} {conditions : Conditions} {s : SelectionSet}
    {selection : Grammar.Selection} : selection ∈ s.meaning style conditions ↔
      ∃ e ∈ s.entries, e.2.meaning style conditions e.1 = selection := by
  rw [SelectionSet.meaning, entryMeanings_eq_map,
    map_snd_sortByKey fun e : String × Entry => e.2.meaning style conditions e.1]
  simp [mem_sortByKey]

mutual

/-- The counterpart of a node is derived by the grammar, whatever its words are. -/
theorem Node.wellFormed_meaning (n : Node) (h : n.AvoidsOn) (key : Option String)
    (directives : List Grammar.Directive) : (n.meaning key directives).WellFormed := by
  obtain ⟨typeName, arguments, conditions, ⟨entries⟩, _, _, _, _⟩ := n
  have hentries := wellFormed_entries .always conditions entries h
  refine selectionsWellFormed_iff.mpr fun s hs => ?_
  obtain ⟨e, he, rfl⟩ := SelectionSet.mem_meaning.mp hs
  exact hentries e he

/-- Entries that spread no fragment called `on` are derived by the grammar. -/
theorem wellFormed_entries (style : KeyStyle) (conditions : Conditions)
    (es : List (String × Entry)) (h : entriesAvoidOn es) :
    ∀ e ∈ es, (e.2.meaning style conditions e.1).WellFormed := by
  cases es with
  | nil => exact List.forall_mem_nil _
  | cons e es =>
    obtain ⟨key, e⟩ := e
    refine List.forall_mem_cons.mpr ⟨?_, wellFormed_entries style conditions es h.2⟩
    cases e with
    | field name => exact wellFormed_fieldMeaning h.1
    | node explicitKey n => exact n.wellFormed_meaning h.1 _ _

end

/-- Every entry is one selection. -/
theorem SelectionSet.length_meaning (style : KeyStyle) (conditions : Conditions)
    (s : SelectionSet) : (s.meaning style conditions).length = s.entries.length := by
  rw [SelectionSet.meaning, entryMeanings_eq_map, List.length_map, sortByKey, List.length_mergeSort,
    List.length_map]

theorem SelectionSet.meaning_ne_nil (style : KeyStyle) (conditions : Conditions)
    {s : SelectionSet} (h : s.entries ≠ []) : s.meaning style conditions ≠ [] := by
  rw [← List.length_pos_iff, SelectionSet.length_meaning]
  exact List.length_pos_iff.mpr h

/-! ## Texts of nodes -/

section Words

variable {style : String → List Char → Prop}

theorem trails_condition {s : String} (hs : isName s.toList = true) {v : VariableRef}
    (hv : isName v.name.toList = true) :
    Trails style (spaced (some ("@" ++ s ++ "(if: " ++ v.text ++ ")"))).toList
      (slotPieces (directivesSlots [conditionMeaning s v])) := by
  have hvalue : Laid style v.text.toList [.kept (.mark '$'), .kept (.name v.name)] := by
    rw [VariableRef.text, String.toList_append]
    exact .mark rfl (by decide) (.word hv)
  have hif : Laid style ("if" ++ ": " ++ v.text).toList _ := .keyed rfl hvalue
  have hall := (Laid.word hs).append (hif.brackets (o := '(') (c := ')') rfl (by decide) rfl rfl)
    (Grammar.stops_cons.mpr rfl)
  have htrails : Trails style (' ' :: '@' :: _) _ :=
    .blank rfl rfl (.mark (c := '@') rfl (by decide) hall)
  simpa [spaced, conditionMeaning, directivesSlots, Grammar.Directive.slots, argumentsSlots,
    Grammar.bracketed, Grammar.argumentSlots, Grammar.Value.pieces] using htrails

/-- The directive on an entry is written behind a blank, or not at all. -/
theorem trails_directive {c : Conditions} (h : c.WellFormed) (key : String) :
    Trails style (spaced (c.directive? key)).toList
      (slotPieces (directivesSlots (c.directives key))) := by
  rw [Conditions.directive?, Conditions.directives]
  cases hskip : c.skipIf.get? key with
  | some v =>
    exact trails_condition (s := "skip") rfl (h.2 _ (OrderedMap.mem_entries_of_get? hskip))
  | none =>
    cases hinclude : c.includeIf.get? key with
    | some v =>
      exact trails_condition (s := "include") rfl
        (h.1 _ (OrderedMap.mem_entries_of_get? hinclude))
    | none => exact .nil

/-- A field behind a key. -/
theorem laid_keyed {key text name : String} {arguments : Grammar.Arguments}
    {directives : List Grammar.Directive} {selections : List Grammar.Selection}
    (h : Laid style text.toList
      (slotPieces (Grammar.Selection.field none name arguments directives selections).slots))
    (hkey : isName key.toList = true) :
    Laid style (key ++ ": " ++ text).toList
      (slotPieces
        (Grammar.Selection.field (some key) name arguments directives selections).slots) :=
  .keyed hkey h

/-- A field is written in the pieces of its selection. -/
theorem laid_fieldText {conditions : Conditions} (hc : conditions.WellFormed) {key name : String}
    (h : FieldSpellable key name) :
    Laid style (fieldText conditions key name).toList
      (slotPieces (fieldMeaning conditions key name).slots) := by
  obtain ⟨hkey, hname⟩ | ⟨fragment, rfl, hfragment⟩ := h
  · have hline : Laid style _ _ := (Laid.word hname).trail (trails_directive hc key)
    have hfield : Laid style (name ++ spaced (conditions.directive? key)).toList
        (slotPieces
          (Grammar.Selection.field none name [] (conditions.directives key) []).slots) := by
      simpa [Grammar.Selection.slots, Grammar.keySlots, argumentsSlots, selectionSlots,
        Grammar.bracketed] using hline
    rw [fieldText, fieldMeaning, isSpread_of_isName hname]
    by_cases heq : key = name
    · subst heq
      simpa using hfield
    · have hkeyed := laid_keyed hfield hkey
      simpa [heq, String.append_assoc] using hkeyed
  · have hspread : Laid style ('.' :: '.' :: '.' :: fragment.toList) _ :=
      .spread (.word hfragment)
    rw [fieldText, fieldMeaning, isSpread_append, if_pos rfl, if_pos rfl, drop_spread,
      String.toList_append]
    exact hspread

theorem selectionSlots_eq_flatMap (ss : List Grammar.Selection) :
    selectionSlots ss = ss.flatMap Grammar.Selection.slots := by
  induction ss with
  | nil => rfl
  | cons s ss ih => rw [selectionSlots, ih, List.flatMap_cons]

/-- What is written for a selection set. -/
theorem SelectionSet.laid_text {keys : KeyStyle} {conditions : Conditions} {s : SelectionSet}
    (h : ∀ e ∈ s.entries, Laid style (e.2.text keys conditions e.1).toList
      (slotPieces (e.2.meaning keys conditions e.1).slots)) :
    Laid style (s.text keys conditions).toList
      (slotPieces (selectionSlots (s.meaning keys conditions))) := by
  rw [SelectionSet.text, SelectionSet.meaning, joinByKey, entryTexts_eq_map, entryMeanings_eq_map,
    map_snd_sortByKey fun e : String × Entry => e.2.text keys conditions e.1,
    map_snd_sortByKey fun e : String × Entry => e.2.meaning keys conditions e.1,
    selectionSlots_eq_flatMap, List.flatMap_map, Grammar.slotPieces_flatMap]
  exact .intercalate fun e he => h e (mem_sortByKey.mp he)

end Words

/-- Selections between braces, even if there are none. -/
def bracedSlots (ss : List Grammar.Selection) : List Slot :=
  .mark '\x7b' :: (selectionSlots ss ++ [.mark '\x7d'])

/-- Selections between braces are written behind a blank. -/
theorem trails_block {style : String → List Char → Prop} {text : String}
    {ss : List Grammar.Selection} (h : Laid style text.toList (slotPieces (selectionSlots ss))) :
    Trails style (" \x7b " ++ text ++ " \x7d").toList (slotPieces (bracedSlots ss)) := by
  have hinside : Laid style (' ' :: (text.toList ++ [' ']))
      (slotPieces (selectionSlots ss) ++ []) :=
    .blank rfl (h.trail (.blank rfl rfl .nil))
  have hbraces := hinside.brackets (o := '\x7b') (c := '\x7d') rfl (by decide) rfl rfl
  have hall := Trails.blank (c := ' ') rfl rfl hbraces
  simpa [bracedSlots] using hall

/-- The fields of a node in braces, if it has any. -/
theorem trails_fields {style : String → List Char → Prop} {keys : KeyStyle}
    {conditions : Conditions} {s : SelectionSet}
    (h : Laid style (s.text keys conditions).toList
      (slotPieces (selectionSlots (s.meaning keys conditions)))) :
    Trails style (if s.entries.isEmpty then ""
        else " \x7b " ++ s.text keys conditions ++ " \x7d").toList
      (slotPieces (Grammar.blockSlots (s.meaning keys conditions))) := by
  cases hs : s.entries with
  | nil =>
    have hnone : s.meaning keys conditions = [] := by
      rw [← List.length_eq_zero_iff, SelectionSet.length_meaning, hs]
      rfl
    rw [hnone]
    exact .nil
  | cons e es =>
    have hne : s.entries ≠ [] := hs ▸ List.cons_ne_nil e es
    rw [Grammar.blockSlots_of_ne_nil (SelectionSet.meaning_ne_nil keys conditions hne)]
    exact trails_block h

section Spelling

variable {inner : Char → Bool}

/-- Arguments in parentheses, if there are any, are written in the pieces of their counterparts. -/
theorem trails_argumentsText (hinner : ∀ c, inner c = true → isInner c = true)
    {arguments : OrderedMap Value}
    (h : ArgumentsSpellable inner arguments) :
    Trails (Verbatim inner)
      (if arguments.isEmpty then "" else " " ++ argumentsText arguments).toList
      (slotPieces (argumentsSlots (argumentMeanings arguments))) := by
  have hlaid : ∀ a ∈ arguments.sorted, Laid (Verbatim inner) (a.1 ++ ": " ++ a.2.text).toList
      (slotPieces (Grammar.argumentSlots (a.1, a.2.meaning))) := by
    intro a ha
    obtain ⟨hname, hvalue⟩ := h a (mem_sortByKey.mp ha)
    have hkeyed := Laid.keyed hname (a.2.laid_text hinner hvalue)
    simpa [Grammar.argumentSlots] using hkeyed
  have hinside := Laid.intercalate hlaid
  rw [← Grammar.slotPieces_flatMap] at hinside
  have hall := Trails.parentheses (fun _ => List.cons_ne_nil _ _) hinside
  rw [isEmpty_sorted] at hall
  rw [argumentsSlots, argumentMeanings, List.flatMap_map, argumentsText]
  split
  · next hempty =>
    rw [if_pos hempty] at hall
    exact hall
  · next hempty =>
    rw [if_neg hempty] at hall
    rw [String.toList_append]
    exact .blank (c := ' ') rfl rfl hall.laid

mutual

/-- A node is written in the pieces of its counterpart, with a directive behind its arguments. -/
theorem Node.laid_textWith (hinner : ∀ c, inner c = true → isInner c = true)
    (n : Node) (h : n.Spellable inner) {directive : Option String}
    {directives : List Grammar.Directive}
    (hd : Trails (Verbatim inner) (spaced directive).toList
      (slotPieces (directivesSlots directives))) :
    Laid (Verbatim inner) (n.textWith directive).toList
      (slotPieces (n.meaning none directives).slots) := by
  obtain ⟨typeName, arguments, conditions, ⟨entries⟩, fragments, isOperation, kind, name⟩ := n
  obtain ⟨hname, harguments, hconditions, hentries⟩ := h
  have hfields := SelectionSet.laid_text (s := ⟨entries⟩)
    (laid_entries hinner .always hconditions entries hentries)
  have hline := (Laid.word hname).trail
    (((trails_argumentsText hinner harguments).append hd).append (trails_fields hfields))
  rw [Node.textWith, Node.meaning]
  simpa [Grammar.Selection.slots, Grammar.keySlots, Grammar.blockSlots, SelectionSet.text,
    SelectionSet.meaning] using hline

/-- Entries are written in the pieces of their selections. -/
theorem laid_entries (hinner : ∀ c, inner c = true → isInner c = true)
    (keys : KeyStyle) {conditions : Conditions} (hc : conditions.WellFormed)
    (es : List (String × Entry)) (h : entriesSpellable inner es) :
    ∀ e ∈ es, Laid (Verbatim inner) (e.2.text keys conditions e.1).toList
      (slotPieces (e.2.meaning keys conditions e.1).slots) := by
  cases es with
  | nil => exact List.forall_mem_nil _
  | cons e es =>
    obtain ⟨key, e⟩ := e
    refine List.forall_mem_cons.mpr ⟨?_, laid_entries hinner keys hc es h.2⟩
    cases e with
    | field name => exact laid_fieldText hc h.1
    | node explicitKey n =>
      have hnode := n.laid_textWith hinner h.1.2 (trails_directive hc key)
      rw [Entry.text, Entry.meaning]
      split
      · next hwrites =>
        have hkey := h.1.1 (Bool.and_eq_true _ _ ▸ hwrites).1
        obtain ⟨typeName, arguments, conditions, ⟨entries⟩, _, _, _, _⟩ := n
        rw [Node.meaning] at hnode ⊢
        exact laid_keyed hnode hkey
      · rw [String.empty_append]
        exact hnode

end

end Spelling

/-! ## Operations -/

/-- A selection set with at least one entry, whose words are names, whose strings hold nothing that
is written with an escape, and which spreads no fragment called `on`. -/
structure SelectionSet.WellFormed (s : SelectionSet) : Prop where
  nonempty : s.entries ≠ []
  spellable : entriesSpellable isBare s.entries
  avoidsOn : entriesAvoidOn s.entries

/-- A fragment with a name that selects something. Nothing is said about its type. -/
def Fragment.WellFormed (f : Fragment) : Prop :=
  isName f.name.toList = true ∧ SelectionSet.WellFormed f.fields

/-- A fragment as a definition. -/
def Fragment.meaning (f : Fragment) : Grammar.Definition :=
  .fragment f.name f.onType [] (SelectionSet.meaning .whenDistinct .empty f.fields)

/-- A text that is read as a reference to a type. -/
def IsTypeText (text : String) : Prop :=
  ∃ type : TypeRef, Spelled text.toList (slotTerminals type.slots)

/-- An operation whose words are names, whose variables have types, and which selects something
wherever a selection set is required. -/
structure Operation.WellFormed (o : Operation) : Prop where
  name : o.name = "" ∨ isName o.name.toList = true
  declarations : ∀ v ∈ o.variableTypes.entries, isName v.1.toList = true ∧ IsTypeText v.2
  fields : SelectionSet.WellFormed o.fields
  fragments : ∀ f ∈ o.definedFragments, f.WellFormed

/-- Whether the fragments that are defined behind an operation are on named types. -/
def Operation.HasTypedFragments (o : Operation) : Prop :=
  ∀ f ∈ o.definedFragments, isName f.onType.toList = true

def OperationKind.meaning : OperationKind → Grammar.OperationType
  | .mutation => .mutation
  | .query => .query

/-- The variables of an operation whose types are read in this way. -/
def Operation.variables (o : Operation) (read : String → TypeRef) :
    List Grammar.VariableDefinition :=
  o.variableTypes.entries.map fun v => ⟨v.1, read v.2, none⟩

/-- The document of an operation. -/
def Operation.meaning (o : Operation) (read : String → TypeRef) : Grammar.Document :=
  .operation o.kind.meaning (if o.name = "" then none else some o.name) (o.variables read) []
      (SelectionSet.meaning .always .empty o.fields) ::
    o.definedFragments.map Fragment.meaning

/-- An operation whose words are names, whose variables have types, and whose values can be found
again. It need not select anything. -/
structure Operation.Spellable (inner : Char → Bool) (o : Operation) : Prop where
  name : o.name = "" ∨ isName o.name.toList = true
  declarations : ∀ v ∈ o.variableTypes.entries, isName v.1.toList = true ∧ IsTypeText v.2
  fields : entriesSpellable inner o.fields.entries
  fragments : ∀ f ∈ o.definedFragments, isName f.name.toList = true ∧
    isName f.onType.toList = true ∧ entriesSpellable inner f.fields.entries

/-- A well-formed operation can be spelled, with strings that need no escapes. -/
theorem Operation.WellFormed.spellable {o : Operation} (h : o.WellFormed)
    (htyped : o.HasTypedFragments) : o.Spellable isBare where
  name := h.name
  declarations := h.declarations
  fields := h.fields.spellable
  fragments f hf := ⟨(h.fragments f hf).1, htyped f hf, (h.fragments f hf).2.spellable⟩

/-- All types of an operation can be read at once. -/
theorem exists_read : ∃ read : String → TypeRef, ∀ text, IsTypeText text →
    Spelled text.toList (slotTerminals (read text).slots) := by
  have hread : ∀ text, ∃ type : TypeRef, IsTypeText text →
      Spelled text.toList (slotTerminals type.slots) := by
    intro text
    by_cases h : IsTypeText text
    · obtain ⟨type, htype⟩ := h
      exact ⟨type, fun _ => htype⟩
    · exact ⟨.named "" false, fun htext => absurd htext h⟩
  choose read hread using hread
  exact ⟨read, hread⟩

/-! ## The slots of operations -/

def Fragment.slots (f : Fragment) : List Slot :=
  .word "fragment" :: .word f.name :: .word "on" :: .word f.onType ::
    bracedSlots (SelectionSet.meaning .whenDistinct .empty f.fields)

/-- The slots that the text of an operation fills. -/
def Operation.slots (o : Operation) (read : String → TypeRef) : List Slot :=
  .word o.kind.meaning.keyword :: ((if o.name = "" then [] else [.word o.name]) ++
    Grammar.variablesSlots (o.variables read) ++
    bracedSlots (SelectionSet.meaning .always .empty o.fields) ++
    o.definedFragments.flatMap Fragment.slots)

theorem cuts_bracedSlots (ss : List Grammar.Selection) : Grammar.Cuts [] (bracedSlots ss) :=
  Grammar.cuts_braced (by simp) (Grammar.cuts_selections ss (by simp) (by simp))

/-- Masking cuts an operation around the floats and the outermost objects. -/
theorem Operation.pieces_slots (o : Operation) (read : String → TypeRef) :
    Source.pieces Grammar.Terminal.kind (slotTerminals (o.slots read)) =
      slotPieces (o.slots read) := by
  have hname : Grammar.Cuts [] (if o.name = "" then [] else [Slot.word o.name]) := by
    split
    · exact Grammar.cuts_nil []
    · exact Grammar.cuts_word [] o.name
  have hfragment : ∀ f : Fragment, Grammar.Cuts [] f.slots := fun f =>
    (((Grammar.cuts_word [] "fragment").append (Grammar.cuts_word [] f.name)).append
      ((Grammar.cuts_word [] "on").append (Grammar.cuts_word [] f.onType))).append
      (cuts_bracedSlots _)
  have htail := ((hname.append (Grammar.cuts_variables List.not_mem_nil (o.variables read))).append
    (cuts_bracedSlots (SelectionSet.meaning .always .empty o.fields))).append
    (Grammar.cuts_flatMap fun f (_ : f ∈ o.definedFragments) => hfragment f)
  exact ((Grammar.cuts_word [] o.kind.meaning.keyword).append htail).pieces_eq

/-- Where something is selected everywhere, these are the slots of a document. -/
theorem Operation.WellFormed.slots_meaning {o : Operation} (h : o.WellFormed)
    (read : String → TypeRef) : (o.meaning read).slots = o.slots read := by
  have hblock {keys : KeyStyle} {s : SelectionSet} (hs : s.WellFormed) :
      Grammar.blockSlots (s.meaning keys .empty) = bracedSlots (s.meaning keys .empty) :=
    Grammar.blockSlots_of_ne_nil (SelectionSet.meaning_ne_nil keys .empty hs.nonempty)
  have hfragments : (o.definedFragments.map Fragment.meaning).flatMap Grammar.Definition.slots =
      o.definedFragments.flatMap Fragment.slots := by
    rw [List.flatMap_map]
    refine List.flatMap_congr fun f hf => ?_
    rw [Fragment.meaning, Grammar.Definition.slots, hblock (h.fragments f hf).2]
    rfl
  rw [Operation.meaning, Grammar.Document.slots, List.flatMap_cons, hfragments,
    Grammar.Definition.slots, hblock h.fields, Operation.slots]
  by_cases hname : o.name = "" <;> simp [hname, directivesSlots]

/-- The document of a well-formed operation is derived by the grammar. -/
theorem Operation.WellFormed.wellFormed_meaning {o : Operation} (h : o.WellFormed)
    (read : String → TypeRef) : (o.meaning read).WellFormed := by
  have hblock {keys : KeyStyle} {s : SelectionSet} (hs : s.WellFormed) :
      Grammar.IsBlock (s.meaning keys .empty) := by
    refine ⟨SelectionSet.meaning_ne_nil keys .empty hs.nonempty, selectionsWellFormed_iff.mpr ?_⟩
    intro selection hselection
    obtain ⟨e, he, rfl⟩ := SelectionSet.mem_meaning.mp hselection
    exact wellFormed_entries keys .empty s.entries hs.avoidsOn e he
  refine ⟨List.cons_ne_nil _ _, List.forall_mem_cons.mpr ⟨⟨?_, hblock h.fields⟩, ?_⟩⟩
  · intro v hv
    obtain ⟨_, -, rfl⟩ := List.mem_map.mp hv
    exact nofun
  · intro d hd
    obtain ⟨f, hf, rfl⟩ := List.mem_map.mp hd
    exact hblock (h.fragments f hf).2

/-- No operation is a subscription, so that no variables are left out. -/
theorem Operation.showsVariables_meaning (o : Operation) (read : String → TypeRef) :
    ∀ d ∈ o.meaning read, d.ShowsVariables := by
  refine List.forall_mem_cons.mpr ⟨?_, ?_⟩
  · cases o.kind <;> exact trivial
  · intro d hd
    obtain ⟨f, -, rfl⟩ := List.mem_map.mp hd
    trivial

/-! ## Texts of operations -/

section Types

variable {style : String → List Char → Prop}

theorem string_not_mem_typeRef (type : TypeRef) (s : String) :
    .string s ∉ slotTerminals type.slots := by
  have hrequired (required : Bool) :
      .string s ∉ slotTerminals (Grammar.requiredSlots required) := by
    cases required <;> simp [Grammar.requiredSlots]
  induction type with
  | named name required => simp [TypeRef.slots, hrequired]
  | list item required ih => simp [TypeRef.slots, hrequired, ih]

theorem laid_typeText {text : String} {type : TypeRef}
    (h : Spelled text.toList (slotTerminals type.slots)) :
    Laid style text.toList (slotPieces type.slots) := by
  have hnone : type.slots.flatMap Slot.heldValues = [] := by
    refine List.flatMap_eq_nil_iff.mpr fun slot hslot => ?_
    obtain ⟨t, rfl⟩ := Grammar.slots_typeRef_terminals type slot hslot
    rfl
  rw [Grammar.slotPieces_of_heldValues hnone]
  exact h.laid fun s hs => absurd hs (string_not_mem_typeRef type s)

/-- Variables are written in parentheses, each with its type, or not at all. -/
theorem trails_variablesText {o : Operation} {read : String → TypeRef}
    (h : ∀ v ∈ o.variableTypes.entries, isName v.1.toList = true ∧
      Spelled v.2.toList (slotTerminals (read v.2).slots)) :
    Trails style o.variablesText.toList
      (slotPieces (Grammar.variablesSlots (o.variables read))) := by
  have hlaid : ∀ v ∈ o.variableTypes.entries, Laid style ("$" ++ v.1 ++ ": " ++ v.2).toList
      (slotPieces (Grammar.VariableDefinition.slots ⟨v.1, read v.2, none⟩)) := by
    intro v hv
    obtain ⟨hname, htype⟩ := h v hv
    have hkeyed : Laid style ('$' :: _) _ :=
      .mark rfl (by decide) (.keyed hname (laid_typeText htype))
    simpa [Grammar.VariableDefinition.slots, Grammar.initialSlots] using hkeyed
  have hinside := Laid.intercalate hlaid
  rw [← Grammar.slotPieces_flatMap] at hinside
  have hall := Trails.parentheses (fun _ => List.cons_ne_nil _ _) hinside
  rw [Operation.variablesText, Operation.variables, Grammar.variablesSlots, List.flatMap_map]
  exact hall

theorem trails_operationName {name : String} (h : name = "" ∨ isName name.toList = true) :
    Trails style (if name = "" then "" else " " ++ name).toList
      (slotPieces (if name = "" then [] else [Slot.word name])) := by
  split
  · exact .nil
  · next hne =>
    rw [String.toList_append]
    exact .blank (c := ' ') rfl rfl (.word (h.resolve_left hne))

end Types

section Operations

variable {inner : Char → Bool} (hinner : ∀ c, inner c = true → isInner c = true)
include hinner

/-- A fragment is written in the pieces of its definition. -/
theorem Fragment.laid_text {f : Fragment} (hname : isName f.name.toList = true)
    (htype : isName f.onType.toList = true) (hfields : entriesSpellable inner f.fields.entries) :
    Laid (Verbatim inner) f.text.toList (slotPieces f.slots) := by
  have hblock := trails_block (SelectionSet.laid_text
    (laid_entries hinner .whenDistinct wellFormed_emptyConditions f.fields.entries hfields))
  have htyped := (Laid.word htype).trail hblock
  have hon := (Laid.word (s := "on") rfl).trail (.blank (c := ' ') rfl rfl htyped)
  have hnamed := (Laid.word hname).trail (.blank (c := ' ') rfl rfl hon)
  have hall := (Laid.word (s := "fragment") rfl).trail (.blank (c := ' ') rfl rfl hnamed)
  rw [Fragment.text, Fragment.slots]
  simpa using hall

/-- **Operations**: the text of an operation is written in the pieces of its slots. -/
theorem Operation.laid_text {o : Operation} (h : o.Spellable inner) {read : String → TypeRef}
    (hread : ∀ text, IsTypeText text → Spelled text.toList (slotTerminals (read text).slots)) :
    Laid (Verbatim inner) o.text.toList (slotPieces (o.slots read)) := by
  have hfragments : Trails (Verbatim inner)
      (String.join (o.definedFragments.map fun f => "\n\n" ++ f.text)).toList
      (slotPieces (o.definedFragments.flatMap Fragment.slots)) := by
    rw [String.toList_join, List.flatMap_map, Grammar.slotPieces_flatMap]
    refine .flatMap fun f hf => ?_
    obtain ⟨hname, htype, hfields⟩ := h.fragments f hf
    rw [String.toList_append]
    exact .blank (c := '\n') rfl rfl
      (.blank (c := '\n') rfl (Fragment.laid_text hinner hname htype hfields))
  have hkeyword : Laid (Verbatim inner) o.kind.keyword.toList
      [.kept (.name o.kind.meaning.keyword)] := by
    cases o.kind with
    | mutation => exact .word rfl
    | query => exact .word rfl
  have hvariables : Trails (Verbatim inner) o.variablesText.toList
      (slotPieces (Grammar.variablesSlots (o.variables read))) :=
    trails_variablesText fun v hv =>
      ⟨(h.declarations v hv).1, hread v.2 (h.declarations v hv).2⟩
  have hfields := trails_block (SelectionSet.laid_text
    (laid_entries hinner .always wellFormed_emptyConditions o.fields.entries h.fields))
  have hall := hkeyword.trail ((((trails_operationName h.name).append hvariables).append
    hfields).append hfragments)
  rw [Operation.text, Operation.slots]
  simpa using hall

end Operations

end QueryDoc
