import QueryDoc.Operation
import QueryDoc.Proofs.OrderedMap

/-!
# QueryDoc.Proofs.Tree

The selection sets of a tree: the one at the root, those of the nodes in it, and those of the
fragments attached to such nodes, at any depth (`SelectionSet.IsWithin`). Nodes, fragments and
operations are the roots (`Item`). What holds of all selection sets of a root is a property of
the tree; `Item.HasDistinctKeys` is the first one, that every map in the tree is one.
-/

namespace QueryDoc

/-! ## Selection sets inside one another -/

/-- A selection set stands within another one if it is that one, or within the selection set of
a node in it, or of a fragment attached to such a node. -/
inductive SelectionSet.IsWithin (t : SelectionSet) : SelectionSet → Prop
  | self : IsWithin t t
  | node {s : SelectionSet} {key : String} {explicitKey : Bool} {n : Node}
      (hn : (key, .node explicitKey n) ∈ s.entries) (ht : IsWithin t n.fields) : IsWithin t s
  | fragment {s : SelectionSet} {key : String} {explicitKey : Bool} {n : Node} {f : Fragment}
      (hn : (key, .node explicitKey n) ∈ s.entries) (hf : f ∈ n.fragments)
      (ht : IsWithin t f.fields) : IsWithin t s

theorem SelectionSet.IsWithin.trans {r s t : SelectionSet} (h : IsWithin t s) (hs : IsWithin s r) :
    IsWithin t r := by
  induction hs with
  | self => exact h
  | node hn _ ih => exact .node hn ih
  | fragment hn hf _ ih => exact .fragment hn hf ih

/-! ## Roots -/

/-- What a caller builds. -/
inductive Item where
  | node (n : Node)
  | fragment (f : Fragment)
  | operation (o : Operation)

namespace Item

def fields : Item → SelectionSet
  | node n => n.fields
  | fragment f => f.fields
  | operation o => o.fields

/-- The fragments attached to the item itself. -/
def fragments : Item → List Fragment
  | node n => n.fragments
  | fragment _ => []
  | operation o => o.fragments

/-- The selection sets of an item and of the fragments attached to it. -/
def Holds (x : Item) (t : SelectionSet) : Prop :=
  SelectionSet.IsWithin t x.fields ∨ ∃ f ∈ x.fragments, SelectionSet.IsWithin t f.fields

end Item

namespace SelectionSet.IsWithin

variable {s t : SelectionSet}

/-- Below the root, a selection set is one of a node at the root. -/
theorem eq_or_holds (h : IsWithin t s) : t = s ∨
    ∃ key explicitKey n, (key, .node explicitKey n) ∈ s.entries ∧ (Item.node n).Holds t := by
  cases h with
  | self => exact .inl rfl
  | @node _ key explicitKey n hn ht => exact .inr ⟨key, explicitKey, n, hn, .inl ht⟩
  | @fragment _ key explicitKey n f hn hf ht =>
    exact .inr ⟨key, explicitKey, n, hn, .inr ⟨f, hf, ht⟩⟩

theorem of_holds {key : String} {explicitKey : Bool} {n : Node}
    (hn : (key, .node explicitKey n) ∈ s.entries) (h : (Item.node n).Holds t) : IsWithin t s := by
  rcases h with h | ⟨f, hf, h⟩
  · exact .node hn h
  · exact .fragment hn hf h

end SelectionSet.IsWithin

/-! ## Distinct keys at every depth -/

/-- No name stands twice among the arguments of a node, nor a key among its conditions. -/
structure Node.IsKeyed (n : Node) : Prop where
  arguments : n.arguments.HasDistinctKeys
  includeIf : n.conditions.includeIf.HasDistinctKeys
  skipIf : n.conditions.skipIf.HasDistinctKeys

theorem Node.IsKeyed.congr {n m : Node} (h : n.IsKeyed) (harguments : m.arguments = n.arguments)
    (hconditions : m.conditions = n.conditions) : m.IsKeyed :=
  ⟨harguments ▸ h.arguments, hconditions ▸ h.includeIf, hconditions ▸ h.skipIf⟩

/-- No key stands twice in a selection set, nor in the maps of a node in it. -/
structure SelectionSet.IsKeyed (s : SelectionSet) : Prop where
  keys : OrderedMap.HasDistinctKeys s
  nodes : ∀ key explicitKey n, (key, .node explicitKey n) ∈ s.entries → n.IsKeyed

/-- No key stands twice in a map of an item, at any depth. -/
structure Item.HasDistinctKeys (x : Item) : Prop where
  root : ∀ n, x = .node n → n.IsKeyed
  below : ∀ t, x.Holds t → SelectionSet.IsKeyed t

/-- The nodes of a selection set have what all selection sets within it have. -/
theorem SelectionSet.hasDistinctKeys_node {s : SelectionSet}
    (h : ∀ t, SelectionSet.IsWithin t s → SelectionSet.IsKeyed t) {key : String}
    {explicitKey : Bool} {n : Node} (hn : (key, .node explicitKey n) ∈ s.entries) :
    (Item.node n).HasDistinctKeys where
  root m hm := by
    cases hm
    exact (h s .self).nodes _ _ _ hn
  below t ht := h t (.of_holds hn ht)

/-! ## Texts of selection sets -/

theorem entryTexts_eq_map (style : KeyStyle) (conditions : Conditions)
    (es : List (String × Entry)) :
    entryTexts style conditions es = es.map fun e => (e.1, e.2.text style conditions e.1) := by
  induction es with
  | nil => rfl
  | cons e es ih => rw [entryTexts, ih, List.map_cons]

/-- A selection set is written entry by entry, in the order of the keys. -/
theorem SelectionSet.text_eq (style : KeyStyle) (conditions : Conditions) (s : SelectionSet) :
    s.text style conditions = ", ".intercalate
      ((sortByKey s.entries).map fun e => e.2.text style conditions e.1) := by
  rw [SelectionSet.text, joinByKey, entryTexts_eq_map,
    map_snd_sortByKey fun e : String × Entry => e.2.text style conditions e.1]

/-! ## Attached fragments -/

/-- Whether a fragment is attached to a node in this selection set or at any depth below it. -/
def SelectionSet.Attaches (s : SelectionSet) (f : Fragment) : Prop :=
  ∃ t, SelectionSet.IsWithin t s ∧
    ∃ key explicitKey n, (key, .node explicitKey n) ∈ t.entries ∧ f ∈ n.fragments

/-- Whether a fragment is attached to an operation, or to a node anywhere in it. -/
def Operation.Attaches (o : Operation) (f : Fragment) : Prop :=
  f ∈ o.fragments ∨ ∃ t, (Item.operation o).Holds t ∧
    ∃ key explicitKey n, (key, .node explicitKey n) ∈ t.entries ∧ f ∈ n.fragments

namespace SelectionSet.Attaches

variable {s : SelectionSet} {key : String} {explicitKey : Bool} {n : Node} {f g : Fragment}

theorem here (hn : (key, .node explicitKey n) ∈ s.entries) (hf : f ∈ n.fragments) :
    SelectionSet.Attaches s f :=
  ⟨s, .self, key, explicitKey, n, hn, hf⟩

theorem below (hn : (key, .node explicitKey n) ∈ s.entries)
    (h : SelectionSet.Attaches n.fields f) : SelectionSet.Attaches s f := by
  obtain ⟨t, ht, hnode⟩ := h
  exact ⟨t, .node hn ht, hnode⟩

theorem inside (hn : (key, .node explicitKey n) ∈ s.entries) (hg : g ∈ n.fragments)
    (h : SelectionSet.Attaches g.fields f) : SelectionSet.Attaches s f := by
  obtain ⟨t, ht, hnode⟩ := h
  exact ⟨t, .fragment hn hg ht, hnode⟩

end SelectionSet.Attaches

theorem Operation.attaches_iff {o : Operation} {f : Fragment} :
    o.Attaches f ↔ f ∈ o.fragments ∨ (∃ g ∈ o.fragments, SelectionSet.Attaches g.fields f) ∨
      SelectionSet.Attaches o.fields f := by
  refine or_congr_right ⟨?_, ?_⟩
  · rintro ⟨t, ht | ⟨g, hg, ht⟩, hnode⟩
    · exact .inr ⟨t, ht, hnode⟩
    · exact .inl ⟨g, hg, t, ht, hnode⟩
  · rintro (⟨g, hg, t, ht, hnode⟩ | ⟨t, ht, hnode⟩)
    · exact ⟨t, .inr ⟨g, hg, ht⟩, hnode⟩
    · exact ⟨t, .inl ht, hnode⟩

/-- The selection sets of an attached fragment are among those of the operation. -/
theorem Operation.Attaches.holds {o : Operation} {f : Fragment} (h : o.Attaches f)
    {t : SelectionSet} (ht : SelectionSet.IsWithin t f.fields) : (Item.operation o).Holds t := by
  rcases h with hf | ⟨s, hs, key, explicitKey, n, hn, hf⟩
  · exact .inr ⟨f, hf, ht⟩
  · have hts : SelectionSet.IsWithin t s := .fragment hn hf ht
    rcases hs with hs | ⟨g, hg, hs⟩
    · exact .inl (hts.trans hs)
    · exact .inr ⟨g, hg, hts.trans hs⟩

end QueryDoc
