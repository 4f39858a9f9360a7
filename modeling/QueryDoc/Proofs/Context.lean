import QueryDoc.Proofs.Tree

/-!
# QueryDoc.Proofs.Context

Items with a node left out, at any depth: below the nodes around it, in their fields or in the
fragments attached to them. Putting a node in gives an item (`Item.Context.fill`), and every node
that stands anywhere in an operation or a fragment is put into it like that
(`Item.exists_context`).
-/

namespace QueryDoc

/-! ## Selection sets -/

/-- A selection set without the node of one of its entries. -/
structure Hole where
  before : List (String × Entry)
  key : String
  explicitKey : Bool
  behind : List (String × Entry)

/-- The selection set with a node put in. -/
def Hole.fill (hole : Hole) (n : Node) : SelectionSet :=
  ⟨hole.before ++ (hole.key, .node hole.explicitKey n) :: hole.behind⟩

theorem SelectionSet.exists_hole {s : SelectionSet} {key : String} {explicitKey : Bool} {n : Node}
    (hn : (key, .node explicitKey n) ∈ s.entries) : ∃ hole : Hole, hole.fill n = s := by
  obtain ⟨before, behind, hsplit⟩ := List.append_of_mem hn
  exact ⟨⟨before, key, explicitKey, behind⟩, congrArg OrderedMap.mk hsplit.symm⟩

/-- A selection set without a node in it. -/
inductive SelectionSet.Context where
  /-- The node of an entry is missing. -/
  | here (hole : Hole)
  /-- A node is missing in the fields of the outer node, whatever fields that one has. -/
  | inNode (hole : Hole) (outer : Node) (inner : SelectionSet.Context)
  /-- A node is missing in the fields of a fragment that is attached to the outer node between
  these other ones. -/
  | inFragment (hole : Hole) (outer : Node) (before : List Fragment) (f : Fragment)
      (behind : List Fragment) (inner : SelectionSet.Context)

namespace SelectionSet.Context

/-- The selection set with a node put in. -/
def fill : SelectionSet.Context → Node → SelectionSet
  | here hole, n => hole.fill n
  | inNode hole outer inner, n => hole.fill { outer with fields := inner.fill n }
  | inFragment hole outer before f behind inner, n =>
    hole.fill { outer with fragments := before ++ { f with fields := inner.fill n } :: behind }

theorem entries_fill_ne_nil (C : SelectionSet.Context) (n : Node) : (C.fill n).entries ≠ [] := by
  cases C <;> exact List.append_ne_nil_of_right_ne_nil _ (List.cons_ne_nil _ _)

end SelectionSet.Context

/-- Every node within a selection set is put into it. -/
theorem SelectionSet.exists_context {s t : SelectionSet} {key : String} {explicitKey : Bool}
    {n : Node} (ht : IsWithin t s) (hn : (key, .node explicitKey n) ∈ t.entries) :
    ∃ C : Context, C.fill n = s := by
  induction ht with
  | self =>
    obtain ⟨hole, rfl⟩ := exists_hole hn
    exact ⟨.here hole, rfl⟩
  | @node _ _ _ outer hm _ ih =>
    obtain ⟨inner, hinner⟩ := ih
    obtain ⟨hole, rfl⟩ := exists_hole hm
    refine ⟨.inNode hole outer inner, ?_⟩
    rw [Context.fill, hinner]
    cases outer
    rfl
  | @fragment _ _ _ outer f hm hf _ ih =>
    obtain ⟨inner, hinner⟩ := ih
    obtain ⟨hole, rfl⟩ := exists_hole hm
    obtain ⟨before, behind, hfragments⟩ := List.append_of_mem hf
    refine ⟨.inFragment hole outer before f behind inner, ?_⟩
    rw [Context.fill, hinner]
    cases f
    cases outer
    exact congrArg _ (by rw [← hfragments])

/-! ## Operations and fragments -/

/-- An operation or a fragment without a node in it. -/
inductive Item.Context where
  /-- A node is missing in the fields of the operation. -/
  | operation (o : Operation) (inner : SelectionSet.Context)
  /-- A node is missing in a fragment that is attached to the operation between these other
  ones. -/
  | attached (o : Operation) (before : List Fragment) (f : Fragment) (behind : List Fragment)
      (inner : SelectionSet.Context)
  /-- A node is missing in a fragment on its own. -/
  | fragment (f : Fragment) (inner : SelectionSet.Context)

namespace Item

/-- The item with a node put in. -/
def Context.fill : Context → Node → Item
  | operation o inner, n => .operation { o with fields := inner.fill n }
  | attached o before f behind inner, n =>
    .operation { o with fragments := before ++ { f with fields := inner.fill n } :: behind }
  | fragment f inner, n => .fragment { f with fields := inner.fill n }

/-- Every node in an operation or a fragment, at any depth, is put into it. -/
theorem exists_context {x : Item} (hx : ∀ m, x ≠ .node m) {t : SelectionSet} {key : String}
    {explicitKey : Bool} {n : Node} (ht : x.Holds t)
    (hn : (key, .node explicitKey n) ∈ t.entries) : ∃ C : Context, C.fill n = x := by
  cases x with
  | node m => exact absurd rfl (hx m)
  | fragment f =>
    have hwithin := ht.resolve_right fun ⟨g, hg, _⟩ => List.not_mem_nil hg
    obtain ⟨inner, hinner⟩ := SelectionSet.exists_context hwithin hn
    refine ⟨.fragment f inner, ?_⟩
    rw [Context.fill, hinner]
    cases f
    rfl
  | operation o =>
    rcases ht with ht | ⟨f, hf, ht⟩
    · obtain ⟨inner, hinner⟩ := SelectionSet.exists_context ht hn
      refine ⟨.operation o inner, ?_⟩
      rw [Context.fill, hinner]
      rfl
    · obtain ⟨inner, hinner⟩ := SelectionSet.exists_context ht hn
      obtain ⟨before, behind, hfragments⟩ := List.append_of_mem (show f ∈ o.fragments from hf)
      refine ⟨.attached o before f behind inner, ?_⟩
      rw [Context.fill, hinner]
      cases f
      exact congrArg _ (by rw [← hfragments])

end Item

end QueryDoc
