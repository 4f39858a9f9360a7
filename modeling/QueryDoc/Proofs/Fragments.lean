import Mathlib
import QueryDoc.Proofs.OrderedMap
import QueryDoc.Proofs.Tree

/-!
# QueryDoc.Proofs.Fragments

The fragments that are defined behind an operation. The search for them carries what it has
found through the whole tree; `nestedFragments` lists all attached fragments without looking at
their names, and `Operation.definedFragments_eq` says that the search finds the first one of
each name in this list.
-/

namespace QueryDoc

/-! ## All attached fragments -/

mutual

/-- The fragments attached to a node, each in front of those below its fields, and then those
below the node's fields. -/
def Node.nestedFragments : Node → List Fragment
  | ⟨_, _, _, ⟨entries⟩, fragments, _, _, _⟩ =>
    attachedFragments fragments ++ (sortByKey (entryFragments entries)).flatMap Prod.snd

/-- The fragments attached to nodes below the fields of a fragment. -/
def Fragment.nestedFragments : Fragment → List Fragment
  | ⟨_, _, ⟨entries⟩⟩ => (sortByKey (entryFragments entries)).flatMap Prod.snd

/-- The fragments below an entry. -/
def Entry.nestedFragments : Entry → List Fragment
  | .field _ => []
  | .node _ n => n.nestedFragments

/-- The fragments of each entry beside its key. -/
def entryFragments : List (String × Entry) → List (String × List Fragment)
  | [] => []
  | (key, e) :: rest => (key, e.nestedFragments) :: entryFragments rest

/-- Fragments, each in front of the fragments below it. -/
def attachedFragments : List Fragment → List Fragment
  | [] => []
  | f :: rest => f :: f.nestedFragments ++ attachedFragments rest

end

/-- The fragments attached to the nodes of a selection set, in the order of its keys. -/
def SelectionSet.nestedFragments (s : SelectionSet) : List Fragment :=
  (sortByKey (entryFragments s.entries)).flatMap Prod.snd

/-- The first fragment of each name. -/
def firstOfEachName : List Fragment → List Fragment
  | [] => []
  | f :: rest => f :: (firstOfEachName rest).filter fun g => g.name ≠ f.name

theorem entryFragments_eq_map (es : List (String × Entry)) :
    entryFragments es = es.map fun e => (e.1, e.2.nestedFragments) := by
  induction es with
  | nil => rfl
  | cons e es ih => rw [entryFragments, ih, List.map_cons]

theorem attachedFragments_eq_flatMap (fs : List Fragment) :
    attachedFragments fs = fs.flatMap fun f => f :: f.nestedFragments := by
  induction fs with
  | nil => rfl
  | cons f fs ih => rw [attachedFragments, ih, List.flatMap_cons]

/-- The entries of a selection set are visited in the order of their keys. -/
theorem SelectionSet.nestedFragments_eq_flatMap (s : SelectionSet) :
    s.nestedFragments = (sortByKey s.entries).flatMap fun e => e.2.nestedFragments := by
  rw [SelectionSet.nestedFragments, entryFragments_eq_map,
    sortByKey_map fun e : String × Entry => e.2.nestedFragments, List.flatMap_map]

/-- The fragments attached to a node come in front of those below its selections. -/
theorem Node.nestedFragments_eq (n : Node) :
    n.nestedFragments = (n.fragments.flatMap fun f => f :: f.nestedFragments) ++
      SelectionSet.nestedFragments n.fields := by
  obtain ⟨_, _, _, ⟨entries⟩, fragments, _, _, _⟩ := n
  rw [Node.nestedFragments, attachedFragments_eq_flatMap]
  rfl

theorem Fragment.nestedFragments_eq (f : Fragment) :
    f.nestedFragments = SelectionSet.nestedFragments f.fields := by
  obtain ⟨_, _, ⟨entries⟩⟩ := f
  rfl

/-- The order of visits does not matter for which fragments are found. -/
theorem SelectionSet.mem_nestedFragments_iff {s : SelectionSet} {f : Fragment} :
    f ∈ s.nestedFragments ↔ ∃ e ∈ s.entries, f ∈ e.2.nestedFragments := by
  simp [SelectionSet.nestedFragments_eq_flatMap, mem_sortByKey]

theorem Node.mem_nestedFragments_iff {n : Node} {f : Fragment} :
    f ∈ n.nestedFragments ↔ (∃ g ∈ n.fragments, f = g ∨ f ∈ g.nestedFragments) ∨
      f ∈ SelectionSet.nestedFragments n.fields := by
  simp [Node.nestedFragments_eq]

/-! ## The list holds what is attached -/

mutual

/-- What is found below a node is attached in the selection set that holds the node. -/
theorem Node.attaches_of_mem (n : Node) {s : SelectionSet} {key : String} {explicitKey : Bool}
    (hn : (key, .node explicitKey n) ∈ s.entries) {f : Fragment} (hf : f ∈ n.nestedFragments) :
    SelectionSet.Attaches s f := by
  obtain ⟨_, _, _, ⟨entries⟩, fragments, _, _, _⟩ := n
  obtain ⟨g, hg, rfl | hf⟩ | hf := Node.mem_nestedFragments_iff.mp hf
  · exact .here hn hg
  · exact .inside hn hg (fragments_attach fragments g hg f hf)
  · obtain ⟨e, he, hf⟩ := SelectionSet.mem_nestedFragments_iff.mp hf
    exact .below hn (entries_attach entries (s := ⟨entries⟩) (fun _ h => h) e he f hf)

/-- What is found below attached fragments is attached in their selection sets. -/
theorem fragments_attach (fs : List Fragment) :
    ∀ g ∈ fs, ∀ f ∈ g.nestedFragments, SelectionSet.Attaches g.fields f := by
  cases fs with
  | nil => exact List.forall_mem_nil _
  | cons g fs =>
    obtain ⟨name, onType, ⟨entries⟩⟩ := g
    refine List.forall_mem_cons.mpr ⟨fun f hf => ?_, fragments_attach fs⟩
    obtain ⟨e, he, hf⟩ := SelectionSet.mem_nestedFragments_iff.mp hf
    exact entries_attach entries (s := ⟨entries⟩) (fun _ h => h) e he f hf

/-- What is found below entries is attached in the selection set that holds them. -/
theorem entries_attach (es : List (String × Entry)) {s : SelectionSet}
    (hes : ∀ e ∈ es, e ∈ s.entries) :
    ∀ e ∈ es, ∀ f ∈ e.2.nestedFragments, SelectionSet.Attaches s f := by
  cases es with
  | nil => exact List.forall_mem_nil _
  | cons e es =>
    obtain ⟨key, e⟩ := e
    refine List.forall_mem_cons.mpr ⟨fun f hf => ?_,
      entries_attach es fun e he => hes e (List.mem_cons_of_mem _ he)⟩
    cases e with
    | field name => contradiction
    | node explicitKey n => exact n.attaches_of_mem (hes _ List.mem_cons_self) hf

end

/-- A fragment is in the list exactly if it is attached somewhere. -/
theorem SelectionSet.mem_nestedFragments {s : SelectionSet} {f : Fragment} :
    f ∈ s.nestedFragments ↔ SelectionSet.Attaches s f := by
  constructor
  · intro hf
    obtain ⟨e, he, hf⟩ := SelectionSet.mem_nestedFragments_iff.mp hf
    exact entries_attach s.entries (fun _ h => h) e he f hf
  · rintro ⟨t, ht, key, explicitKey, n, hn, hf⟩
    induction ht with
    | self =>
      exact SelectionSet.mem_nestedFragments_iff.mpr
        ⟨_, hn, Node.mem_nestedFragments_iff.mpr (.inl ⟨f, hf, .inl rfl⟩)⟩
    | node hm _ ih =>
      exact SelectionSet.mem_nestedFragments_iff.mpr
        ⟨_, hm, Node.mem_nestedFragments_iff.mpr (.inr ih)⟩
    | fragment hm hg _ ih =>
      rw [← Fragment.nestedFragments_eq] at ih
      exact SelectionSet.mem_nestedFragments_iff.mpr
        ⟨_, hm, Node.mem_nestedFragments_iff.mpr (.inl ⟨_, hg, .inr ih⟩)⟩

/-! ## The search -/

theorem entryCollectors_eq_map (es : List (String × Entry)) :
    entryCollectors es = es.map fun e => (e.1, fun found => e.2.collect found) := by
  induction es with
  | nil => rw [entryCollectors, List.map_nil]
  | cons e es ih => rw [entryCollectors, ih, List.map_cons]

/-- Collecting from entries goes over the fragments below them, if it does for each of them. -/
theorem collectByKey_eq {es : List (String × Entry)}
    (h : ∀ e ∈ es, ∀ found, e.2.collect found = e.2.nestedFragments.foldl addDistinct found)
    (found : List Fragment) :
    collectByKey (entryCollectors es) found =
      (SelectionSet.nestedFragments ⟨es⟩).foldl addDistinct found := by
  rw [collectByKey, entryCollectors_eq_map,
    sortByKey_map fun (e : String × Entry) (found : List Fragment) => e.2.collect found,
    List.foldl_map, SelectionSet.nestedFragments_eq_flatMap, List.foldl_flatMap]
  exact List.foldl_ext _ _ _ fun found e he => h e (mem_sortByKey.mp he) found

mutual

/-- The search adds the fragments of the list one by one. -/
theorem Node.collect_eq (n : Node) (found : List Fragment) :
    n.collect found = n.nestedFragments.foldl addDistinct found := by
  obtain ⟨_, _, _, ⟨entries⟩, fragments, _, _, _⟩ := n
  rw [Node.collect, collectAttached_eq fragments, collectByKey_eq (collect_entries entries),
    ← List.foldl_append]
  rfl

/-- Collecting from attached fragments goes over them and the fragments below them. -/
theorem collectAttached_eq (fs : List Fragment) (found : List Fragment) :
    collectAttached fs found = (attachedFragments fs).foldl addDistinct found := by
  cases fs with
  | nil => rw [collectAttached, attachedFragments, List.foldl_nil]
  | cons f fs =>
    obtain ⟨name, onType, ⟨entries⟩⟩ := f
    rw [collectAttached, Fragment.collect, collectByKey_eq (collect_entries entries),
      collectAttached_eq fs, attachedFragments, List.cons_append, List.foldl_cons,
      List.foldl_append]
    rfl

/-- Collecting from an entry goes over the fragments below it. -/
theorem collect_entries (es : List (String × Entry)) :
    ∀ e ∈ es, ∀ found, e.2.collect found = e.2.nestedFragments.foldl addDistinct found := by
  cases es with
  | nil => exact List.forall_mem_nil _
  | cons e es =>
    obtain ⟨key, e⟩ := e
    refine List.forall_mem_cons.mpr ⟨fun found => ?_, collect_entries es⟩
    cases e with
    | field name => rw [Entry.collect, Entry.nestedFragments, List.foldl_nil]
    | node explicitKey n =>
      rw [Entry.collect, Entry.nestedFragments]
      exact n.collect_eq found

end

/-- Collecting from a fragment goes over the fragments below it. -/
theorem Fragment.collect_eq (f : Fragment) (found : List Fragment) :
    f.collect found = f.nestedFragments.foldl addDistinct found := by
  obtain ⟨name, onType, ⟨entries⟩⟩ := f
  rw [Fragment.collect, collectByKey_eq (collect_entries entries)]
  rfl

/-! ## First fragments -/

/-- Adding fragments one by one adds the first one of each name that is not there yet. -/
theorem foldl_addDistinct (fs found : List Fragment) :
    fs.foldl addDistinct found =
      found ++ (firstOfEachName fs).filter fun f => f.name ∉ found.map Fragment.name := by
  induction fs generalizing found with
  | nil => simp [firstOfEachName]
  | cons f fs ih =>
    rw [List.foldl_cons, ih, addDistinct, firstOfEachName, List.filter_cons, List.filter_filter]
    by_cases hf : ∃ g ∈ found, g.name = f.name
    · have hmem : f.name ∈ found.map Fragment.name := List.mem_map.mpr hf
      rw [if_pos (by simpa using hf), if_neg (by simpa using hmem)]
      -- What has another name than the fragments found has another name than this one.
      refine congrArg _ (List.filter_congr fun g _ => ?_)
      by_cases hg : g.name = f.name <;> simp_all
    · have hmem : f.name ∉ found.map Fragment.name := fun h => hf (List.mem_map.mp h)
      rw [if_neg (by simpa using hf), if_pos (by simpa using hmem), List.append_assoc,
        List.singleton_append]
      refine congrArg _ (congrArg _ (List.filter_congr fun g _ => ?_))
      rw [Bool.eq_iff_iff]
      simp [and_comm]

/-- No name is kept twice. -/
theorem nodup_firstOfEachName (fs : List Fragment) :
    ((firstOfEachName fs).map Fragment.name).Nodup := by
  induction fs with
  | nil => exact List.nodup_nil
  | cons f fs ih =>
    rw [firstOfEachName, List.map_cons, List.nodup_cons]
    refine ⟨fun hmem => ?_, ih.sublist (List.filter_sublist.map Fragment.name)⟩
    obtain ⟨g, hg, hname⟩ := List.mem_map.mp hmem
    exact of_decide_eq_true (List.mem_filter.mp hg).2 hname

/-- Of each name the first fragment is kept. -/
theorem find?_firstOfEachName (fs : List Fragment) (name : String) :
    (firstOfEachName fs).find? (fun f => f.name = name) = fs.find? fun f => f.name = name := by
  induction fs with
  | nil => rfl
  | cons f fs ih =>
    rw [firstOfEachName]
    by_cases hf : f.name = name
    · simp [hf]
    · rw [List.find?_cons_of_neg (by simpa using hf), List.find?_cons_of_neg (by simpa using hf),
        ← ih, List.find?_filter]
      refine List.find?_congr fun g _ => ?_
      by_cases hg : g.name = name
      · have hne : g.name ≠ f.name := fun h => hf (h.symm.trans hg)
        simp [hg, hg ▸ hne]
      · simp [hg]

theorem mem_of_mem_firstOfEachName {fs : List Fragment} {f : Fragment}
    (h : f ∈ firstOfEachName fs) : f ∈ fs := by
  induction fs with
  | nil => contradiction
  | cons g fs ih =>
    rw [firstOfEachName, List.mem_cons] at h
    rcases h with rfl | h
    · exact List.mem_cons_self
    · exact List.mem_cons_of_mem g (ih (List.mem_filter.mp h).1)

/-- No name is lost. -/
theorem map_name_firstOfEachName (fs : List Fragment) (name : String) :
    name ∈ (firstOfEachName fs).map Fragment.name ↔ name ∈ fs.map Fragment.name := by
  simp only [List.mem_map]
  constructor
  · rintro ⟨f, hf, hname⟩
    exact ⟨f, mem_of_mem_firstOfEachName hf, hname⟩
  · rintro ⟨f, hf, hname⟩
    have hsome : (fs.find? fun f => f.name = name).isSome :=
      List.find?_isSome.mpr ⟨f, hf, by simpa using hname⟩
    obtain ⟨g, hg⟩ := Option.isSome_iff_exists.mp hsome
    rw [← find?_firstOfEachName] at hg
    exact ⟨g, List.mem_of_find?_eq_some hg, by simpa using List.find?_some hg⟩

/-! ## Operations -/

/-- The fragments attached below the fields of an operation's own fragments, and then those
below the fields of the operation. -/
def Operation.nestedFragments (o : Operation) : List Fragment :=
  (o.fragments.flatMap fun f => SelectionSet.nestedFragments f.fields) ++
    SelectionSet.nestedFragments o.fields

/-- The text of an operation without the fragments behind it. -/
def Operation.bodyText (o : Operation) : String :=
  o.kind.keyword ++ (if o.name = "" then "" else " " ++ o.name) ++ o.variablesText ++
    " \x7b " ++ SelectionSet.text .always .empty o.fields ++ " \x7d"

/-- The fragments that are visited are those that are attached somewhere. -/
theorem Operation.mem_attached_iff {o : Operation} {f : Fragment} :
    f ∈ o.fragments ++ o.nestedFragments ↔ o.Attaches f := by
  simp only [Operation.nestedFragments, List.mem_append, List.mem_flatMap,
    SelectionSet.mem_nestedFragments, Operation.attaches_iff]

/-- The fragments behind a document are the first of each name, the operation's own in front. -/
theorem Operation.definedFragments_eq (o : Operation) :
    o.definedFragments = firstOfEachName (o.fragments ++ o.nestedFragments) := by
  have hnested (found : List Fragment) :
      o.fragments.foldl (fun found f => f.collect found) found =
        (o.fragments.flatMap fun f => SelectionSet.nestedFragments f.fields).foldl addDistinct
          found := by
    rw [List.foldl_flatMap]
    refine List.foldl_ext _ _ _ fun found f _ => ?_
    rw [f.collect_eq, f.nestedFragments_eq]
  rw [Operation.definedFragments, collectByKey_eq (collect_entries _)]
  simp only [hnested]
  rw [← List.foldl_append, ← List.foldl_append, ← Operation.nestedFragments, foldl_addDistinct]
  simp

/-- Only attached fragments are defined. -/
theorem Operation.attaches_of_mem_definedFragments {o : Operation} {f : Fragment}
    (h : f ∈ o.definedFragments) : o.Attaches f := by
  rw [Operation.definedFragments_eq] at h
  exact Operation.mem_attached_iff.mp (mem_of_mem_firstOfEachName h)

/-- **Defined fragments**: behind the body of an operation stands the first fragment of each
name among those attached to it, its own in front of those attached to nodes. So each attached
name is defined once, nothing else is defined, and the own fragment of a name wins. -/
theorem Operation.definedFragments_eq_firstOfEachName (o : Operation) :
    o.definedFragments = firstOfEachName
        (o.fragments ++ (o.fragments.flatMap fun f => SelectionSet.nestedFragments f.fields) ++
          SelectionSet.nestedFragments o.fields) ∧
      (o.definedFragments.map Fragment.name).Nodup ∧
      (∀ name, name ∈ o.definedFragments.map Fragment.name ↔
        ∃ f, o.Attaches f ∧ f.name = name) ∧
      (∀ name, o.definedFragments.find? (fun f => f.name = name) =
        (o.fragments.find? fun f => f.name = name).or
          (o.nestedFragments.find? fun f => f.name = name)) ∧
      o.text = o.bodyText ++ String.join (o.definedFragments.map fun f => "\n\n" ++ f.text) := by
  have heq := o.definedFragments_eq
  refine ⟨?_, ?_, fun name => ?_, fun name => ?_, rfl⟩
  · rw [heq, Operation.nestedFragments, List.append_assoc]
  · rw [heq]
    exact nodup_firstOfEachName _
  · rw [heq, map_name_firstOfEachName, List.mem_map]
    simp only [Operation.mem_attached_iff]
  · rw [heq, find?_firstOfEachName, List.find?_append]

end QueryDoc
