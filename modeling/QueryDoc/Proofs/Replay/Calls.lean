import QueryDoc.Proofs.Reordering
import QueryDoc.Proofs.Replay.Edits

/-!
# QueryDoc.Proofs.Replay.Calls

Sequences of calls on nodes, fragments and operations. Each call is a row of edits of one map:
a selection is stored under its key, an argument under its name, a variable under its name
without `$`, a condition under the key of the field that it is on. Only fields are ever forgotten.

After any calls each map is the replay of what it held before and of the edits of the calls.
Texts do not show the order of keys, so calls that treat each key of each map alike lead to nodes
and fragments that are written alike (`replay_of_calls`).
-/

namespace QueryDoc

/-! ## Selection sets -/

/-- A call that changes a selection set. -/
inductive FieldCall where
  | select (selection : Selection)
  | selectAll (selections : List Selection)
  | deselect (keys : List String)

/-- A selection stores its entry under its key. -/
def Selection.edit (s : Selection) : Edit Entry := .store s.key s.entry

def FieldCall.edits : FieldCall → List (Edit Entry)
  | select selection => [selection.edit]
  | selectAll selections => selections.map Selection.edit
  | deselect keys => keys.map .forget

namespace SelectionSet

/-- The selection set after a call. -/
def call (s : SelectionSet) : FieldCall → SelectionSet
  | .select selection => s.select selection
  | .selectAll selections => s.selectAll selections
  | .deselect keys => s.deselect keys

/-- Every call on a selection set is a row of edits of its entries. -/
theorem call_eq_editAll (s : SelectionSet) (c : FieldCall) : s.call c = s.editAll c.edits := by
  cases c with
  | select selection => exact s.select_eq selection
  | selectAll selections =>
    rw [call, selectAll, FieldCall.edits, OrderedMap.editAll, List.foldl_map]
    exact congrArg (List.foldl · s selections) (funext₂ select_eq)
  | deselect keys => exact OrderedMap.eraseAll_eq_editAll s keys

end SelectionSet

/-! ## Nodes -/

/-- A call on a node. -/
inductive NodeCall where
  | onFields (call : FieldCall)
  | argument (name : String) (value : Value)
  | withArguments (arguments : List (String × Value))
  | skipIf (conditions : List (String × VariableRef))
  | includeIf (conditions : List (String × VariableRef))
  | withTypeName (name : String)
  | withOperationName (name : String)
  | addFragment (fragment : Fragment)

namespace NodeCall

/-- The edits of entries that a call makes. -/
def fieldEdits : NodeCall → List (Edit Entry)
  | onFields call => call.edits
  | _ => []

/-- The arguments that the call stores. -/
def arguments : NodeCall → List (String × Value)
  | argument name value => [(name, value)]
  | withArguments arguments => arguments
  | _ => []

/-- The conditions to skip fields that the call stores. -/
def skips : NodeCall → List (String × VariableRef)
  | skipIf conditions => conditions
  | _ => []

/-- The conditions to include fields that the call stores. -/
def includes : NodeCall → List (String × VariableRef)
  | includeIf conditions => conditions
  | _ => []

/-- The type name that a call sets. -/
def typeName? : NodeCall → Option String
  | withTypeName name => some name
  | _ => none

end NodeCall

/-- What has been done to a node. -/
structure NodeHistory where
  /-- The type name that was given last. -/
  typeName : String
  fields : List (Edit Entry)
  arguments : List (String × Value)
  skips : List (String × VariableRef)
  includes : List (String × VariableRef)

/-- Histories with one type name that treat each key of each map alike. -/
structure NodeHistory.Agrees (h h' : NodeHistory) : Prop where
  typeName : h.typeName = h'.typeName
  fields : AgreePerKey h.fields h'.fields
  arguments : AgreePerKey (storeAll h.arguments) (storeAll h'.arguments)
  skips : AgreePerKey (storeAll h.skips) (storeAll h'.skips)
  includes : AgreePerKey (storeAll h.includes) (storeAll h'.includes)

namespace Node

/-- The node after a call. -/
def call (n : Node) : NodeCall → Node
  | .onFields (.select selection) => n.select selection
  | .onFields (.selectAll selections) => n.selectAll selections
  | .onFields (.deselect keys) => n.deselect keys
  | .argument name value => n.argument name value
  | .withArguments arguments => n.withArguments arguments
  | .skipIf conditions => n.skipIf conditions
  | .includeIf conditions => n.includeIf conditions
  | .withTypeName name => n.withTypeName name
  | .withOperationName name => n.withOperationName name
  | .addFragment fragment => n.addFragment fragment

/-- Make calls in order. -/
def run (n : Node) (cs : List NodeCall) : Node := cs.foldl call n

/-- What the node holds, and then what the calls do. -/
def history (n : Node) (cs : List NodeCall) : NodeHistory where
  typeName := (cs.filterMap NodeCall.typeName?).getLastD n.typeName
  fields := storeAll n.fields.entries ++ cs.flatMap NodeCall.fieldEdits
  arguments := n.arguments.entries ++ cs.flatMap NodeCall.arguments
  skips := n.conditions.skipIf.entries ++ cs.flatMap NodeCall.skips
  includes := n.conditions.includeIf.entries ++ cs.flatMap NodeCall.includes

/-- A node whose maps hold what this history leads to. -/
structure IsReplayOf (n : Node) (h : NodeHistory) : Prop where
  typeName : n.typeName = h.typeName
  fields : OrderedMap.IsReplayOf n.fields h.fields
  arguments : n.arguments.IsReplayOf (storeAll h.arguments)
  skips : n.conditions.skipIf.IsReplayOf (storeAll h.skips)
  includes : n.conditions.includeIf.IsReplayOf (storeAll h.includes)

/-! ## One call, and all calls -/

/-- A call edits the entries as it says. -/
theorem fields_call (n : Node) (c : NodeCall) :
    (n.call c).fields = n.fields.editAll c.fieldEdits := by
  cases c with
  | onFields c =>
    have hcall : (n.call (.onFields c)).fields = SelectionSet.call n.fields c := by
      cases c <;> rfl
    exact hcall.trans (SelectionSet.call_eq_editAll _ _)
  | _ => rfl

/-- A call adds the arguments that it names. -/
theorem arguments_call (n : Node) (c : NodeCall) :
    (n.call c).arguments = n.arguments.insertAll c.arguments := by
  cases c with
  | onFields c => cases c <;> rfl
  | _ => rfl

theorem skipIf_call (n : Node) (c : NodeCall) :
    (n.call c).conditions.skipIf = n.conditions.skipIf.insertAll c.skips := by
  cases c with
  | onFields c => cases c <;> rfl
  | _ => rfl

theorem includeIf_call (n : Node) (c : NodeCall) :
    (n.call c).conditions.includeIf = n.conditions.includeIf.insertAll c.includes := by
  cases c with
  | onFields c => cases c <;> rfl
  | _ => rfl

/-- A call sets the type name, or leaves it. -/
theorem typeName_call (n : Node) (c : NodeCall) :
    (n.call c).typeName = c.typeName?.getD n.typeName := by
  cases c with
  | onFields c => cases c <;> rfl
  | _ => rfl

/-- The last type name that was set is the one that stays. -/
theorem typeName_run (n : Node) (cs : List NodeCall) :
    (n.run cs).typeName = (cs.filterMap NodeCall.typeName?).getLastD n.typeName := by
  induction cs generalizing n with
  | nil => rfl
  | cons c cs ih =>
    have hrun : (n.run (c :: cs)).typeName =
        (cs.filterMap NodeCall.typeName?).getLastD (c.typeName?.getD n.typeName) := by
      rw [← typeName_call]
      exact ih (n.call c)
    rw [hrun, List.filterMap_cons]
    cases c.typeName? with
    | none => rfl
    | some name => rw [Option.getD_some, List.getLastD_cons]

/-- After calls each map is the replay of what it held and of the edits of the calls. -/
theorem isReplayOf_run {n : Node} (hmaps : n.IsKeyed)
    (hfields : OrderedMap.HasDistinctKeys n.fields) (cs : List NodeCall) :
    (n.run cs).IsReplayOf (n.history cs) where
  typeName := typeName_run n cs
  fields := OrderedMap.isReplayOf_foldl Node.fields fields_call hfields cs
  arguments :=
    OrderedMap.isReplayOf_foldl_insertAll Node.arguments arguments_call hmaps.arguments cs
  skips := OrderedMap.isReplayOf_foldl_insertAll (fun n : Node => n.conditions.skipIf) skipIf_call
    hmaps.skipIf cs
  includes := OrderedMap.isReplayOf_foldl_insertAll (fun n : Node => n.conditions.includeIf)
    includeIf_call hmaps.includeIf cs

end Node

/-! ## Fragments and operations -/

namespace Fragment

/-- The fragment after a call. -/
def call (f : Fragment) : FieldCall → Fragment
  | .select selection => f.select selection
  | .selectAll selections => f.selectAll selections
  | .deselect keys => f.deselect keys

def run (f : Fragment) (cs : List FieldCall) : Fragment := cs.foldl call f

/-- What the fragment holds, and then what the calls do. -/
def history (f : Fragment) (cs : List FieldCall) : List (Edit Entry) :=
  storeAll f.fields.entries ++ cs.flatMap FieldCall.edits

theorem fields_call (f : Fragment) (c : FieldCall) :
    (f.call c).fields = f.fields.editAll c.edits := by
  have hcall : (f.call c).fields = SelectionSet.call f.fields c := by cases c <;> rfl
  exact hcall.trans (SelectionSet.call_eq_editAll _ _)

theorem isReplayOf_run {f : Fragment} (hfields : OrderedMap.HasDistinctKeys f.fields)
    (cs : List FieldCall) : OrderedMap.IsReplayOf (f.run cs).fields (f.history cs) :=
  OrderedMap.isReplayOf_foldl Fragment.fields fields_call hfields cs

/-- Calls change the selection set only. -/
theorem name_run (f : Fragment) (cs : List FieldCall) :
    (f.run cs).name = f.name ∧ (f.run cs).onType = f.onType := by
  induction cs generalizing f with
  | nil => exact ⟨rfl, rfl⟩
  | cons c cs ih =>
    have hcall : (f.call c).name = f.name ∧ (f.call c).onType = f.onType := by
      cases c <;> exact ⟨rfl, rfl⟩
    exact ⟨(ih (f.call c)).1.trans hcall.1, (ih (f.call c)).2.trans hcall.2⟩

end Fragment

/-- A call on an operation. -/
inductive OperationCall where
  | onFields (call : FieldCall)
  | declare (name type : String)
  | declareAll (types : List (String × String))
  | addFragment (fragment : Fragment)

namespace OperationCall

def fieldEdits : OperationCall → List (Edit Entry)
  | onFields call => call.edits
  | _ => []

/-- The types that the call stores, by the variable's name without `$`. -/
def types : OperationCall → List (String × String)
  | declare name type => [((VariableRef.ofText name).name, type)]
  | declareAll types => types.map fun v => ((VariableRef.ofText v.1).name, v.2)
  | _ => []

end OperationCall

/-- A dollar sign in front of a variable is taken off. -/
theorem VariableRef.name_ofText_dollar (name : String) : (ofText ("$" ++ name)).name = name := by
  simp [ofText]

/-- Without a dollar sign, the text is the name. -/
theorem VariableRef.name_ofText {name : String} (h : name.toList.head? ≠ some '$') :
    (ofText name).name = name := by
  unfold ofText
  split
  · next heq => exact absurd (by rw [heq]; rfl) h
  · rfl

namespace Operation

/-- The operation after a call. -/
def call (o : Operation) : OperationCall → Operation
  | .onFields (.select selection) => o.select selection
  | .onFields (.selectAll selections) => o.selectAll selections
  | .onFields (.deselect keys) => o.deselect keys
  | .declare name type => o.declare name type
  | .declareAll types => o.declareAll types
  | .addFragment fragment => o.addFragment fragment

def run (o : Operation) (cs : List OperationCall) : Operation := cs.foldl call o

/-- What the operation selects, and then what the calls do. -/
def fieldHistory (o : Operation) (cs : List OperationCall) : List (Edit Entry) :=
  storeAll o.fields.entries ++ cs.flatMap OperationCall.fieldEdits

/-- What the operation declares, and then what the calls declare. -/
def typeHistory (o : Operation) (cs : List OperationCall) : List (String × String) :=
  o.variableTypes.entries ++ cs.flatMap OperationCall.types

/-- Declaring variables edits their types and nothing else. -/
theorem declareAll_maps (o : Operation) (types : List (String × String)) :
    (o.declareAll types).fields = o.fields ∧ (o.declareAll types).variableTypes =
      o.variableTypes.insertAll (types.map fun v => ((VariableRef.ofText v.1).name, v.2)) := by
  induction types generalizing o with
  | nil => exact ⟨rfl, rfl⟩
  | cons v types ih => exact ih (o.declare v.1 v.2)

theorem fields_call (o : Operation) (c : OperationCall) :
    (o.call c).fields = o.fields.editAll c.fieldEdits := by
  cases c with
  | onFields c =>
    have hcall : (o.call (.onFields c)).fields = SelectionSet.call o.fields c := by
      cases c <;> rfl
    exact hcall.trans (SelectionSet.call_eq_editAll _ _)
  | declareAll types => exact (o.declareAll_maps types).1
  | _ => rfl

theorem variableTypes_call (o : Operation) (c : OperationCall) :
    (o.call c).variableTypes = o.variableTypes.insertAll c.types := by
  cases c with
  | onFields c => cases c <;> rfl
  | declareAll types => exact (o.declareAll_maps types).2
  | _ => rfl

theorem fields_isReplayOf_run {o : Operation} (hfields : OrderedMap.HasDistinctKeys o.fields)
    (cs : List OperationCall) : OrderedMap.IsReplayOf (o.run cs).fields (o.fieldHistory cs) :=
  OrderedMap.isReplayOf_foldl Operation.fields fields_call hfields cs

theorem variableTypes_isReplayOf_run {o : Operation} (htypes : o.variableTypes.HasDistinctKeys)
    (cs : List OperationCall) :
    (o.run cs).variableTypes.IsReplayOf (storeAll (o.typeHistory cs)) :=
  OrderedMap.isReplayOf_foldl_insertAll Operation.variableTypes variableTypes_call htypes cs

end Operation

/-! ## Texts -/

/-- Conditions are seen only through the directives that they put on keys. -/
theorem entryTexts_congr {c c' : Conditions} (h : ∀ key, c.directive? key = c'.directive? key)
    (style : KeyStyle) (es : List (String × Entry)) :
    entryTexts style c es = entryTexts style c' es := by
  rw [entryTexts_eq_map, entryTexts_eq_map]
  refine List.map_congr_left fun e _ => ?_
  cases e.2 with
  | field name => rw [Entry.text, Entry.text, fieldText, fieldText, h]
  | node explicitKey n => rw [Entry.text, Entry.text, h]

/-- Selection sets with the same entries under the same conditions are written alike. -/
theorem joinByKey_entryTexts_congr {c c' : Conditions}
    (h : ∀ key, c.directive? key = c'.directive? key) (style : KeyStyle)
    {es es' : List (String × Entry)} (hperm : es.Perm es') (hkeys : (es.map Prod.fst).Nodup) :
    joinByKey (entryTexts style c es) = joinByKey (entryTexts style c' es') := by
  rw [entryTexts_congr h]
  refine joinByKey_congr (entryTexts_perm hperm _ _) ?_
  rwa [map_fst_entryTexts]

/-- **Replayed nodes**: where histories agree, replays are written alike. -/
theorem Node.IsReplayOf.textWith_eq {n n' : Node} {h h' : NodeHistory} (hn : n.IsReplayOf h)
    (hn' : n'.IsReplayOf h') (hagree : h.Agrees h') (directive : Option String) :
    n.textWith directive = n'.textWith directive := by
  have htype : n.typeName = n'.typeName := by
    rw [hn.typeName, hn'.typeName, hagree.typeName]
  have harguments := hn.arguments.perm hn'.arguments hagree.arguments
  have hfields := hn.fields.perm hn'.fields hagree.fields
  have hdirective (key : String) : n.conditions.directive? key = n'.conditions.directive? key := by
    rw [Conditions.directive?, Conditions.directive?, hn.skips.get?_eq hn'.skips hagree.skips,
      hn.includes.get?_eq hn'.includes hagree.includes]
  have htext := argumentsText_congr harguments hn.arguments.distinct
  have htexts := joinByKey_entryTexts_congr hdirective .always hfields hn.fields.distinct
  have hnone : n.arguments.isEmpty = n'.arguments.isEmpty := harguments.isEmpty_eq
  have hempty := hfields.isEmpty_eq
  cases n
  cases n'
  dsimp only at htype htext htexts hnone hempty
  rw [Node.textWith, Node.textWith, htype, htext, htexts, hnone, hempty]

/-- Fragments that replay agreeing edits have the same text. -/
theorem Fragment.text_eq_of_replays {f f' : Fragment} {es es' : List (Edit Entry)}
    (hname : f.name = f'.name) (htype : f.onType = f'.onType)
    (hf : OrderedMap.IsReplayOf f.fields es) (hf' : OrderedMap.IsReplayOf f'.fields es')
    (hagree : AgreePerKey es es') : f.text = f'.text := by
  have htexts := joinByKey_entryTexts_congr (c := .empty) (fun _ => rfl) .whenDistinct
    (hf.perm hf' hagree) hf.distinct
  rw [Fragment.text, Fragment.text, hname, htype, SelectionSet.text, SelectionSet.text, htexts]

/-! ## Built in one call -/

/-- The calls that stand for giving a node its type name, arguments and fields at once. -/
def Node.buildCalls (typeName : String) (arguments : List (String × Value))
    (selections : List Selection) : List NodeCall :=
  [.withTypeName typeName, .withArguments arguments, .onFields (.selectAll selections)]

/-- Calls on a seeded node are calls on a new one, the seeds first. -/
theorem Node.run_build (kind : OperationKind) (typeName : String)
    (arguments : List (String × Value)) (selections : List Selection) (cs : List NodeCall) :
    (build kind typeName arguments selections).run cs =
      (new kind).run (buildCalls typeName arguments selections ++ cs) :=
  rfl

/-- Calls on a seeded fragment are calls on a new one, the seeds first. -/
theorem Fragment.run_build (name onType : String) (selections : List Selection)
    (cs : List FieldCall) :
    (build name onType selections).run cs = (new name onType).run (.selectAll selections :: cs) :=
  rfl

/-- Calls on a seeded operation are calls on a new one, the seeds first. -/
theorem Operation.map_run_build (keyword name : String) (types : List (String × String))
    (selections : List Selection) (cs : List OperationCall) :
    (build keyword name types selections).map (fun o => o.run cs) =
      (ofKeyword keyword name).map fun o =>
        o.run (.declareAll types :: .onFields (.selectAll selections) :: cs) := by
  rw [build]
  cases ofKeyword keyword name <;> rfl

/-! ## Whole sequences of calls -/

/-- **Last write wins**: after any calls on a node, a fragment or an operation each map is the
replay of what it held before and of the edits of the calls, variables being stored without the
dollar sign that they may be declared with. So nodes and fragments are written alike if what has
been done to them agrees key by key, and building in one call is the same as chaining calls. -/
theorem replay_of_calls :
    (∀ (n : Node) (cs : List NodeCall), n.IsKeyed → OrderedMap.HasDistinctKeys n.fields →
      (n.run cs).IsReplayOf (n.history cs)) ∧
    (∀ (f : Fragment) (cs : List FieldCall), OrderedMap.HasDistinctKeys f.fields →
      OrderedMap.IsReplayOf (f.run cs).fields (f.history cs)) ∧
    (∀ (o : Operation) (cs : List OperationCall), OrderedMap.HasDistinctKeys o.fields →
      o.variableTypes.HasDistinctKeys →
        OrderedMap.IsReplayOf (o.run cs).fields (o.fieldHistory cs) ∧
        (o.run cs).variableTypes.IsReplayOf (storeAll (o.typeHistory cs))) ∧
    (∀ name type, OperationCall.types (.declare ("$" ++ name) type) = [(name, type)] ∧
      (name.toList.head? ≠ some '$' → OperationCall.types (.declare name type) = [(name, type)])) ∧
    (∀ (n n' : Node) (cs cs' : List NodeCall), n.IsKeyed → n'.IsKeyed →
      OrderedMap.HasDistinctKeys n.fields → OrderedMap.HasDistinctKeys n'.fields →
      (n.history cs).Agrees (n'.history cs') → ∀ directive,
        (n.run cs).textWith directive = (n'.run cs').textWith directive) ∧
    (∀ (f f' : Fragment) (cs cs' : List FieldCall), f.name = f'.name → f.onType = f'.onType →
      OrderedMap.HasDistinctKeys f.fields → OrderedMap.HasDistinctKeys f'.fields →
      AgreePerKey (f.history cs) (f'.history cs') → (f.run cs).text = (f'.run cs').text) ∧
    (∀ kind typeName arguments selections cs,
      (Node.build kind typeName arguments selections).run cs =
        (Node.new kind).run (Node.buildCalls typeName arguments selections ++ cs)) ∧
    (∀ name onType selections cs, (Fragment.build name onType selections).run cs =
      (Fragment.new name onType).run (.selectAll selections :: cs)) ∧
    (∀ keyword name types selections cs,
      (Operation.build keyword name types selections).map (fun o => o.run cs) =
        (Operation.ofKeyword keyword name).map fun o =>
          o.run (.declareAll types :: .onFields (.selectAll selections) :: cs)) := by
  refine ⟨fun n cs hmaps hfields => Node.isReplayOf_run hmaps hfields cs,
    fun f cs hfields => Fragment.isReplayOf_run hfields cs,
    fun o cs hfields htypes => ⟨Operation.fields_isReplayOf_run hfields cs,
      Operation.variableTypes_isReplayOf_run htypes cs⟩, fun name type => ?_,
    fun n n' cs cs' hmaps hmaps' hfields hfields' hagree directive => ?_,
    fun f f' cs cs' hname htype hfields hfields' hagree => ?_,
    Node.run_build, Fragment.run_build, Operation.map_run_build⟩
  · refine ⟨?_, fun h => ?_⟩
    · rw [OperationCall.types, VariableRef.name_ofText_dollar]
    · rw [OperationCall.types, VariableRef.name_ofText h]
  · exact (Node.isReplayOf_run hmaps hfields cs).textWith_eq
      (Node.isReplayOf_run hmaps' hfields' cs') hagree directive
  · obtain ⟨hn, ht⟩ := f.name_run cs
    obtain ⟨hn', ht'⟩ := f'.name_run cs'
    exact Fragment.text_eq_of_replays (hn.trans (hname.trans hn'.symm))
      (ht.trans (htype.trans ht'.symm)) (Fragment.isReplayOf_run hfields cs)
      (Fragment.isReplayOf_run hfields' cs') hagree

/-- An item with two fields, built in one call. -/
def revisedItem : Node := .build .query "item" [("a", .null)] [.field "x", .field "y"]

/-- One of the fields is taken out and comes back, and the other gets another name. -/
def revisions : List NodeCall :=
  [.onFields (.deselect ["x", "z"]), .argument "b" (.bool true),
    .onFields (.selectAll [.fieldAs "y" "name", .field "x"]), .skipIf [("x", ⟨"short"⟩)]]

/-- The same changes to each key, one by one and in another order. -/
def chainedRevisions : List NodeCall :=
  [.skipIf [("x", ⟨"short"⟩)], .argument "b" (.bool true), .argument "a" .null,
    .onFields (.deselect ["z"]), .onFields (.select (.field "y")),
    .onFields (.select (.fieldAs "y" "name")), .onFields (.select (.field "x")),
    .onFields (.deselect ["x"]), .onFields (.select (.field "x")), .withTypeName "item"]

theorem agrees_chainedRevisions :
    (revisedItem.history revisions).Agrees ((Node.new .query).history chainedRevisions) where
  typeName := rfl
  fields := by
    refine agreePerKey_of_keys ["x", "y", "z"] (by decide) (by decide) ?_
    simp only [List.forall_mem_cons]
    exact ⟨rfl, rfl, rfl, List.forall_mem_nil _⟩
  arguments := by
    refine agreePerKey_of_keys ["a", "b"] (by decide) (by decide) ?_
    simp only [List.forall_mem_cons]
    exact ⟨rfl, rfl, List.forall_mem_nil _⟩
  skips _ := rfl
  includes _ := rfl

theorem isKeyed_revisedItem : revisedItem.IsKeyed := ⟨by decide, by decide, by decide⟩

theorem agreePerKey_rest : AgreePerKey
    ((Fragment.build "Rest" "Item" [.field "x", .field "y"]).history [.deselect ["x"]])
    ((Fragment.new "Rest" "Item").history
      [.select (.field "x"), .deselect ["x"], .select (.field "y")]) := by
  refine agreePerKey_of_keys ["x", "y"] (by decide) (by decide) ?_
  simp only [List.forall_mem_cons]
  exact ⟨rfl, rfl, List.forall_mem_nil _⟩

theorem replay_revisedItem :
    (revisedItem.IsKeyed ∧ OrderedMap.HasDistinctKeys revisedItem.fields ∧
      (revisedItem.run revisions).IsReplayOf (revisedItem.history revisions)) ∧
    ((revisedItem.history revisions).Agrees ((Node.new .query).history chainedRevisions) ∧
      (revisedItem.run revisions).textWith none =
        ((Node.new .query).run chainedRevisions).textWith none) ∧
    (AgreePerKey ((Fragment.build "Rest" "Item" [.field "x", .field "y"]).history [.deselect ["x"]])
        ((Fragment.new "Rest" "Item").history
          [.select (.field "x"), .deselect ["x"], .select (.field "y")]) ∧
      ((Fragment.build "Rest" "Item" [.field "x", .field "y"]).run [.deselect ["x"]]).text =
        ((Fragment.new "Rest" "Item").run
          [.select (.field "x"), .deselect ["x"], .select (.field "y")]).text) ∧
    ((Operation.new .query "q").run [.declare "$v" "Int", .declareAll [("w", "ID"), ("v", "ID")]]
      ).variableTypes.IsReplayOf (storeAll [("v", "Int"), ("w", "ID"), ("v", "ID")]) := by
  obtain ⟨hnodes, hfragments, hoperations, hnames, htexts, hrest, -⟩ := replay_of_calls
  have hfields : OrderedMap.HasDistinctKeys revisedItem.fields := by decide
  have hempty : OrderedMap.HasDistinctKeys (Node.new .query).fields := by decide
  refine ⟨⟨isKeyed_revisedItem, hfields, hnodes _ _ isKeyed_revisedItem hfields⟩,
    ⟨agrees_chainedRevisions, ?_⟩, ⟨agreePerKey_rest, ?_⟩, ?_⟩
  · exact htexts _ _ _ _ isKeyed_revisedItem ⟨by decide, by decide, by decide⟩ hfields hempty
      agrees_chainedRevisions none
  · exact hrest _ _ _ _ rfl rfl (by decide) (by decide) agreePerKey_rest
  · exact (hoperations (.new .query "q")
      [.declare "$v" "Int", .declareAll [("w", "ID"), ("v", "ID")]] (by decide) (by decide)).2

end QueryDoc
