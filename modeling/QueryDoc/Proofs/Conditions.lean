import QueryDoc.Proofs.Surroundings

/-!
# QueryDoc.Proofs.Conditions

What a condition changes. A node has conditions for the fields in its own selection set, and a
condition is seen there only: in the text of the field that is selected under its key, wherever
the item that the node stands in shows the node (`Node.text_addConditions`).
-/

namespace QueryDoc

/-! ## Adding conditions -/

/-- The two conditions that a field can have. -/
inductive ConditionKind where
  | skipping
  | including
deriving DecidableEq, Repr

/-- The variables of the conditions of one kind, by response key. -/
def Conditions.ofKind (c : Conditions) : ConditionKind → OrderedMap VariableRef
  | .skipping => c.skipIf
  | .including => c.includeIf

namespace Node

/-- Adds one condition for a key. -/
def addCondition (n : Node) (kind : ConditionKind) (key : String) (v : VariableRef) : Node :=
  match kind with
  | .skipping => n.skipIf [(key, v)]
  | .including => n.includeIf [(key, v)]

/-- Adds conditions for a key, one after the other. -/
def addConditions (n : Node) (key : String) (cs : List (ConditionKind × VariableRef)) : Node :=
  cs.foldl (fun n c => n.addCondition c.1 key c.2) n

/-- The variable of the last condition of a kind for a key, once these are added. -/
def lastVariable? (n : Node) (kind : ConditionKind) (key : String)
    (cs : List (ConditionKind × VariableRef)) : Option VariableRef :=
  (cs.reverse.lookup kind).or ((n.conditions.ofKind kind).get? key)

/-- Whether another condition of this kind for a key can be seen: a field is selected under the
key, and is not skipped already if it is to be included. -/
def Heeds (n : Node) (kind : ConditionKind) (key : String) : Prop :=
  (∃ e, n.fields.get? key = some e ∧ e.isSpread = false) ∧
    (kind = .including → n.conditions.skipIf.get? key = none)

/-- A node can be given a condition before it is selected or afterwards. -/
theorem attached_addCondition (n : Node) (kind : ConditionKind) (key : String) (v : VariableRef)
    (selectedAs : Option String) :
    (n.addCondition kind key v).attached selectedAs =
      (n.attached selectedAs).addCondition kind key v := by
  cases kind <;> cases selectedAs <;> rfl

theorem withConditions_self (n : Node) : n.withConditions n.conditions = n := by
  cases n
  rfl

theorem addCondition_eq (n : Node) (kind : ConditionKind) (key : String) (v : VariableRef) :
    n.addCondition kind key v = n.withConditions (n.addCondition kind key v).conditions := by
  cases kind <;> rfl

theorem ofKind_addCondition (n : Node) (kind kind' : ConditionKind) (key key' : String)
    (v : VariableRef) :
    ((n.addCondition kind key v).conditions.ofKind kind').get? key' =
      if kind' = kind ∧ key' = key then some v
      else (n.conditions.ofKind kind').get? key' := by
  cases kind <;> cases kind' <;>
    simp [addCondition, skipIf, includeIf, Conditions.ofKind, OrderedMap.insertAll,
      OrderedMap.get?_insert]

/-- Nothing but the conditions of a node changes when some are added. -/
theorem addConditions_eq (n : Node) (key : String) (cs : List (ConditionKind × VariableRef)) :
    n.addConditions key cs = n.withConditions (n.addConditions key cs).conditions := by
  induction cs generalizing n with
  | nil => exact n.withConditions_self.symm
  | cons c cs ih =>
    rw [addConditions, List.foldl_cons, ← addConditions, ih, n.addCondition_eq]
    rfl

theorem ofKind_addConditions (n : Node) (kind : ConditionKind) (key : String)
    (cs : List (ConditionKind × VariableRef)) :
    ((n.addConditions key cs).conditions.ofKind kind).get? key = n.lastVariable? kind key cs := by
  induction cs using List.reverseRecOn with
  | nil => rfl
  | append_singleton cs c ih =>
    rw [addConditions, List.foldl_concat, ← addConditions, ofKind_addCondition, ih, lastVariable?,
      lastVariable?, List.reverse_concat, List.lookup_cons]
    by_cases hkind : kind = c.1
    · rw [if_pos ⟨hkind, rfl⟩, beq_iff_eq.mpr hkind]
      rfl
    · rw [if_neg fun h => hkind h.1, beq_eq_false_iff_ne.mpr hkind]

/-- If conditions are added, there is a last one. -/
theorem exists_lastVariable? (n : Node) (key : String)
    {cs : List (ConditionKind × VariableRef)} (h : cs ≠ []) :
    ∃ kind v, n.lastVariable? kind key cs = some v := by
  obtain ⟨cs, c, rfl⟩ := (List.eq_nil_or_concat' cs).resolve_left h
  refine ⟨c.1, c.2, ?_⟩
  rw [lastVariable?, List.reverse_concat, List.lookup_cons_self]
  rfl

theorem ofKind_addConditions_of_ne (n : Node) (kind : ConditionKind) {key key' : String}
    (h : key' ≠ key) (cs : List (ConditionKind × VariableRef)) :
    ((n.addConditions key cs).conditions.ofKind kind).get? key' =
      (n.conditions.ofKind kind).get? key' := by
  induction cs generalizing n with
  | nil => rfl
  | cons c cs ih =>
    rw [addConditions, List.foldl_cons, ← addConditions, ih, ofKind_addCondition,
      if_neg fun hkey => h hkey.2]

end Node

namespace Conditions

theorem directive?_eq (c : Conditions) (key : String) : c.directive? key =
    (((c.ofKind .skipping).get? key).map fun v => "@skip(if: " ++ v.text ++ ")").or
      (((c.ofKind .including).get? key).map fun v => "@include(if: " ++ v.text ++ ")") := by
  rw [directive?, ofKind, ofKind]
  cases c.skipIf.get? key <;> cases c.includeIf.get? key <;> rfl

theorem directive?_congr {c c' : Conditions} {key : String}
    (h : ∀ kind, (c.ofKind kind).get? key = (c'.ofKind kind).get? key) :
    c.directive? key = c'.directive? key := by
  rw [directive?_eq, directive?_eq, h, h]

end Conditions

/-! ## What an entry shows of conditions -/

namespace Entry

/-- The text of an entry up to the directive. -/
def headText (key : String) : Entry → String
  | field name => if key = name then name else key ++ ": " ++ name
  | node explicitKey n => (if explicitKey then key ++ ": " else "") ++ n.headText

/-- The text of an entry behind the directive, which is its selection set. -/
def fieldsText : Entry → String
  | field _ => ""
  | node _ n => n.fieldsText

theorem text_congr (e : Entry) (style : KeyStyle) {c c' : Conditions} {key : String}
    (h : c.directive? key = c'.directive? key) : e.text style c key = e.text style c' key := by
  cases e with
  | field name => rw [text, text, fieldText, fieldText, h]
  | node explicitKey n => rw [text, text, h]

theorem text_of_isSpread {e : Entry} (h : e.isSpread = true) (style : KeyStyle)
    (c c' : Conditions) (key : String) : e.text style c key = e.text style c' key := by
  cases e with
  | field name =>
    have hspread : QueryDoc.isSpread name = true := h
    rw [text, text, fieldText, fieldText, if_pos hspread, if_pos hspread]
  | node explicitKey n => contradiction

/-- An entry that is no spread shows the directive of its key, between its own parts. -/
theorem text_eq {e : Entry} (h : e.isSpread = false) (c : Conditions) (key : String) :
    e.text .always c key = e.headText key ++ spaced (c.directive? key) ++ e.fieldsText := by
  cases e with
  | field name =>
    have hspread : ¬ QueryDoc.isSpread name = true := Bool.eq_false_iff.mp h
    rw [text, fieldText, if_neg hspread, fieldsText, String.append_empty]
    rfl
  | node explicitKey n =>
    rw [text, n.textWith_eq, KeyStyle.writes, Bool.and_true, headText, fieldsText]
    simp only [String.append_assoc]

end Entry

/-! ## What a node shows of its conditions -/

namespace Node

theorem textWith_withConditions_eq (n : Node) (c : Conditions) (directive : Option String) :
    (n.withConditions c).textWith directive =
      n.headText ++ spaced directive ++ (n.withConditions c).fieldsText :=
  textWith_eq _ _

/-- Nodes whose entries have the same texts are written alike. -/
theorem textWith_withConditions_congr {n : Node} {c c' : Conditions}
    (h : ∀ e ∈ n.fields.entries, e.2.text .always c e.1 = e.2.text .always c' e.1)
    (directive : Option String) :
    (n.withConditions c).textWith directive = (n.withConditions c').textWith directive := by
  have hfields : SelectionSet.text .always c n.fields = SelectionSet.text .always c' n.fields := by
    rw [SelectionSet.text_eq, SelectionSet.text_eq,
      List.map_congr_left fun e he => h e (mem_sortByKey.mp he)]
  have hbraces : (n.withConditions c).fieldsText = (n.withConditions c').fieldsText :=
    congrArg (fun s => if n.fields.isEmpty then "" else " \x7b " ++ s ++ " \x7d") hfields
  rw [textWith_withConditions_eq, textWith_withConditions_eq, hbraces]

/-- If conditions differ at one key only, the node differs in the entry under this key only. -/
theorem textWith_withConditions_varies {n : Node} (hkeys : OrderedMap.HasDistinctKeys n.fields)
    {key : String} {e : Entry} (he : n.fields.get? key = some e) {c : ι → Conditions}
    (hc : ∀ i, ∀ k ≠ key, (c i).directive? k = n.conditions.directive? k)
    (directive : Option String) :
    VaryOnlyIn (fun i => e.text .always (c i) key)
      fun i => (n.withConditions (c i)).textWith directive := by
  obtain ⟨front, back, hsplit, hother⟩ := hkeys.exists_sortByKey_eq he
  let write (c : Conditions) (e : String × Entry) : String := e.2.text .always c e.1
  have hsame (i : ι) : ∀ e' ∈ front ++ back, write (c i) e' = write n.conditions e' :=
    fun e' he' => e'.2.text_congr .always (hc i e'.1 (hother e' he'))
  obtain ⟨before, behind, hjoined⟩ :=
    exists_intercalate_eq ", " (front.map (write n.conditions)) (back.map (write n.conditions))
  have hfields (i : ι) : SelectionSet.text .always (c i) n.fields =
      before ++ e.text .always (c i) key ++ behind := by
    rw [SelectionSet.text_eq, hsplit, List.map_append, List.map_cons, ← hjoined,
      List.map_congr_left fun e' he' => hsame i e' (List.mem_append_left _ he'),
      List.map_congr_left fun e' he' => hsame i e' (List.mem_append_right _ he')]
  have hne : n.fields.entries ≠ [] := List.ne_nil_of_mem (OrderedMap.mem_entries_of_get? he)
  have hbraces (i : ι) : (n.withConditions (c i)).fieldsText =
      " \x7b " ++ (before ++ e.text .always (c i) key ++ behind) ++ " \x7d" := by
    rw [← hfields i]
    exact fieldsText_of_ne_nil hne
  refine ⟨n.headText ++ spaced directive ++ " \x7b " ++ before, behind ++ " \x7d", fun i => ?_⟩
  dsimp only
  rw [textWith_withConditions_eq, hbraces]
  simp only [String.append_assoc]

/-- A condition that is not heeded is not seen in any entry. -/
theorem text_addCondition_of_not_heeds {n : Node} (hkeys : OrderedMap.HasDistinctKeys n.fields)
    {kind : ConditionKind} {key : String} (h : ¬ n.Heeds kind key) (v : VariableRef) :
    ∀ e ∈ n.fields.entries,
      e.2.text .always (n.addCondition kind key v).conditions e.1 =
        e.2.text .always n.conditions e.1 := by
  rintro ⟨key', e⟩ he
  by_cases hkey : key' = key
  · subst hkey
    cases hspread : e.isSpread with
    | true => exact e.text_of_isSpread hspread _ _ _ _
    | false =>
      -- The field is skipped already, and the new condition is one to include it.
      obtain ⟨hkind, hskip⟩ := Classical.not_imp.mp fun himp =>
        h ⟨⟨e, hkeys.get?_eq_some_iff.mpr he, hspread⟩, himp⟩
      obtain ⟨skipped, hskipped⟩ := Option.ne_none_iff_exists'.mp hskip
      have hold : (n.conditions.ofKind .skipping).get? key' = some skipped := hskipped
      refine e.text_congr .always ?_
      rw [Conditions.directive?_eq, Conditions.directive?_eq, ofKind_addCondition,
        if_neg (by simp [hkind]), hold]
      rfl
  · refine e.text_congr .always (Conditions.directive?_congr fun kind' => ?_)
    rw [ofKind_addCondition, if_neg fun heq => hkey heq.2]

end Node

/-! ## What an operation or a fragment shows of conditions -/

namespace Item.Context

variable {n : Node} {key : String} {e : Entry}

/-- A node that is written alike under other conditions leaves the item as it is. -/
theorem text_withConditions_congr (C : Item.Context) {c c' : Conditions}
    (h : ∀ directive, (n.withConditions c).textWith directive =
      (n.withConditions c').textWith directive) :
    (C.fill (n.withConditions c)).text = (C.fill (n.withConditions c')).text := by
  obtain ⟨earlier, name, later, text, directive, htexts, hshown⟩ := C.showsOnce n
  obtain ⟨hwritten, hunwritten⟩ := C.text_varies htexts
  by_cases hw : C.Writes (earlier.map Prod.fst) name
  · obtain ⟨front, back, htext⟩ := hshown.trans (hwritten hw)
    exact (htext c).trans ((congrArg (front ++ · ++ back) (h directive)).trans (htext c').symm)
  · obtain ⟨whole, htext⟩ := hunwritten hw
    rw [htext, htext]

/-- What changes in an item with conditions for a key of the node that is put in: one of the
texts of the item, in the entry under this key only, and the item itself as far as it writes that
text. -/
structure ShowsEntry (C : Item.Context) (n : Node) (key : String) (e : Entry)
    (earlier : List (Option String × String)) (name : Option String)
    (later : List (Option String × String))
    (text : List (ConditionKind × VariableRef) → String) : Prop where
  texts : ∀ cs, (C.fill (n.addConditions key cs)).texts = earlier ++ (name, text cs) :: later
  entry : VaryOnlyIn (fun cs => e.text .always (n.addConditions key cs).conditions key) text
  written : C.Writes (earlier.map Prod.fst) name →
    VaryOnlyIn text fun cs => (C.fill (n.addConditions key cs)).text
  unwritten : ¬ C.Writes (earlier.map Prod.fst) name →
    ∀ cs, (C.fill (n.addConditions key cs)).text = (C.fill n).text

theorem exists_showsEntry (C : Item.Context) (hkeys : OrderedMap.HasDistinctKeys n.fields)
    (he : n.fields.get? key = some e) :
    ∃ earlier name later text, C.ShowsEntry n key e earlier name later text := by
  obtain ⟨earlier, name, later, text, directive, htexts, hshown⟩ := C.showsOnce n
  let conditions (cs : List (ConditionKind × VariableRef)) := (n.addConditions key cs).conditions
  have hitem (cs : List (ConditionKind × VariableRef)) :
      (C.fill (n.addConditions key cs)).texts = earlier ++ (name, text (conditions cs)) :: later :=
    n.addConditions_eq key cs ▸ htexts (conditions cs)
  have hentry : VaryOnlyIn (fun cs => e.text .always (conditions cs) key)
      fun cs => (n.withConditions (conditions cs)).textWith directive := by
    refine Node.textWith_withConditions_varies hkeys he (fun cs k hk => ?_) directive
    exact Conditions.directive?_congr fun kind => n.ofKind_addConditions_of_ne kind hk cs
  obtain ⟨front, back, hnode⟩ := hshown
  obtain ⟨hwritten, hunwritten⟩ := C.text_varies hitem
  refine ⟨earlier, name, later, fun cs => text (conditions cs), hitem,
    hentry.trans ⟨front, back, fun cs => hnode (conditions cs)⟩, hwritten, fun hw cs => ?_⟩
  obtain ⟨whole, hwhole⟩ := hunwritten hw
  exact (hwhole cs).trans (hwhole []).symm

end Item.Context

/-- With conditions for its key a field has one directive, the last one to skip it or else the last
one to include it. -/
theorem Node.text_entry_addConditions (n : Node) {e : Entry} (hspread : e.isSpread = false)
    (key : String) {cs : List (ConditionKind × VariableRef)} (hcs : cs ≠ []) :
    (∃ v, n.lastVariable? .skipping key cs = some v ∧
      e.text .always (n.addConditions key cs).conditions key =
        e.headText key ++ " @skip(if: " ++ v.text ++ ")" ++ e.fieldsText) ∨
    (n.lastVariable? .skipping key cs = none ∧ ∃ v, n.lastVariable? .including key cs = some v ∧
      e.text .always (n.addConditions key cs).conditions key =
        e.headText key ++ " @include(if: " ++ v.text ++ ")" ++ e.fieldsText) := by
  rw [e.text_eq hspread, Conditions.directive?_eq, ofKind_addConditions, ofKind_addConditions]
  cases hskip : n.lastVariable? .skipping key cs with
  | some v =>
    refine .inl ⟨v, rfl, ?_⟩
    simp [spaced, ← String.append_assoc]
  | none =>
    have hinclude : ∃ v, n.lastVariable? .including key cs = some v := by
      obtain ⟨kind, v, hlast⟩ := n.exists_lastVariable? key hcs
      cases kind with
      | skipping => rw [hskip] at hlast; contradiction
      | including => exact ⟨v, hlast⟩
    obtain ⟨v, hv⟩ := hinclude
    refine .inr ⟨rfl, v, hv, ?_⟩
    rw [hv]
    simp [spaced, ← String.append_assoc]

/-- **Scope of conditions**: every node in an operation or a fragment is put into the rest of it,
whether it is given conditions before it is selected or afterwards, and there

* a condition that the node does not heed changes nothing,
* other conditions change the entry under their key in the node's own selection set, in the one
  text that shows the node, and nothing beside it,
* and the entry has one directive, in front of its selection set: the last variable to skip it
  by, or else the last one to include it by. -/
theorem Node.text_addConditions (n : Node) (hkeys : OrderedMap.HasDistinctKeys n.fields)
    (key : String) :
    (∀ (x : Item) (t : SelectionSet) (k : String) (explicitKey : Bool), (∀ m, x ≠ .node m) →
      x.Holds t → (k, .node explicitKey n) ∈ t.entries → ∃ C : Item.Context, C.fill n = x) ∧
    (∀ kind v selectedAs, (n.addCondition kind key v).attached selectedAs =
      (n.attached selectedAs).addCondition kind key v) ∧
    (∀ (C : Item.Context) kind v, ¬ n.Heeds kind key →
      (C.fill (n.addCondition kind key v)).text = (C.fill n).text) ∧
    (∀ (C : Item.Context) e, n.fields.get? key = some e →
      ∃ earlier name later text, C.ShowsEntry n key e earlier name later text) ∧
    ∀ e, n.fields.get? key = some e → e.isSpread = false → ∀ cs ≠ [],
      (∃ v, n.lastVariable? .skipping key cs = some v ∧
        e.text .always (n.addConditions key cs).conditions key =
          e.headText key ++ " @skip(if: " ++ v.text ++ ")" ++ e.fieldsText) ∨
      (n.lastVariable? .skipping key cs = none ∧ ∃ v, n.lastVariable? .including key cs = some v ∧
        e.text .always (n.addConditions key cs).conditions key =
          e.headText key ++ " @include(if: " ++ v.text ++ ")" ++ e.fieldsText) := by
  refine ⟨fun x t k explicitKey hx ht hn => Item.exists_context hx ht hn,
    fun kind v selectedAs => n.attached_addCondition kind key v selectedAs,
    fun C kind v hheeds => ?_, fun C e he => C.exists_showsEntry hkeys he,
    fun e _ hspread cs hcs => n.text_entry_addConditions hspread key hcs⟩
  have hentries := text_addCondition_of_not_heeds hkeys hheeds v
  have htext := C.text_withConditions_congr fun directive =>
    textWith_withConditions_congr hentries directive
  rwa [← addCondition_eq, withConditions_self] at htext

/-- A node with a spread and a field. -/
def taggedNode : Node where
  typeName := "article"
  arguments := .empty
  conditions := .empty
  fields := ⟨[("...Rest", .field "...Rest"), ("tags", .field "tags")]⟩
  fragments := []
  isOperation := false
  kind := .query
  operationName := none

/-- A query with a fragment for two nodes, one of which is missing. -/
def taggedQuery : Item.Context :=
  .attached (Operation.new .query "Tagged") [] (Fragment.new "Items" "Item") []
    (.here ⟨[("tags", .node true taggedNode)], "first", true, []⟩)

theorem text_addConditions_taggedNode : OrderedMap.HasDistinctKeys taggedNode.fields ∧
    (taggedQuery.fill (taggedNode.addCondition .skipping "...Rest" ⟨"a"⟩)).text =
      (taggedQuery.fill taggedNode).text ∧
    (∃ earlier name later text,
      taggedQuery.ShowsEntry taggedNode "tags" (.field "tags") earlier name later text) ∧
    (Entry.field "tags").text .always (taggedNode.addConditions "tags"
      [(.skipping, ⟨"a"⟩), (.including, ⟨"b"⟩)]).conditions "tags" = "tags @skip(if: $a)" := by
  have hkeys : OrderedMap.HasDistinctKeys taggedNode.fields := by decide
  obtain ⟨-, -, hunheeded, -, -⟩ := taggedNode.text_addConditions hkeys "...Rest"
  obtain ⟨-, -, -, hentry, hdirective⟩ := taggedNode.text_addConditions hkeys "tags"
  have htags : taggedNode.fields.get? "tags" = some (.field "tags") := rfl
  refine ⟨hkeys, hunheeded taggedQuery .skipping ⟨"a"⟩ ?_, hentry taggedQuery _ htags, ?_⟩
  · rintro ⟨⟨e, he, hspread⟩, -⟩
    cases he
    exact absurd hspread (by decide)
  · obtain ⟨v, hv, htext⟩ | ⟨hnone, -⟩ :=
      hdirective _ htags rfl [(.skipping, ⟨"a"⟩), (.including, ⟨"b"⟩)] (List.cons_ne_nil _ _)
    · cases hv
      exact htext
    · contradiction

end QueryDoc
