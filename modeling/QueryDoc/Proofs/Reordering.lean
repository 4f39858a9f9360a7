import QueryDoc.Proofs.Building
import QueryDoc.Proofs.Bytes
import QueryDoc.Proofs.Fragments

/-!
# QueryDoc.Proofs.Reordering

Texts do not depend on the order in which things were stored. `Item.Reordered` relates items
whose arguments, conditions and fields are stored in different orders, at any depth; lists of
fragments, variables and the contents of values keep theirs. The relation needs distinct keys
to preserve texts, and all that is built has them (`Item.Built.isSound`).
-/

namespace QueryDoc

/-! ## Storing in another order -/

/-- Conditions stored in another order. -/
structure Conditions.Reordered (c c' : Conditions) : Prop where
  includeIf : c.includeIf.entries.Perm c'.includeIf.entries
  skipIf : c.skipIf.entries.Perm c'.skipIf.entries

mutual

/-- Nodes that differ only in the order in which arguments, conditions and fields are stored,
at any depth. -/
inductive Node.Reordered : Node → Node → Prop
  | intro {typeName : String} {as as' : OrderedMap Value} {c c' : Conditions}
      {es mid es' : List (String × Entry)} {fs fs' : List Fragment} {isOperation : Bool}
      {kind : OperationKind} {operationName : Option String}
      (arguments : as.entries.Perm as'.entries) (conditions : c.Reordered c')
      (order : es.Perm mid) (fields : EntriesReordered mid es')
      (fragments : FragmentsReordered fs fs') :
      Node.Reordered ⟨typeName, as, c, ⟨es⟩, fs, isOperation, kind, operationName⟩
        ⟨typeName, as', c', ⟨es'⟩, fs', isOperation, kind, operationName⟩

/-- A field stays as it is, and a node may have another order inside. -/
inductive Entry.Reordered : Entry → Entry → Prop
  | field (name : String) : Entry.Reordered (.field name) (.field name)
  | node (explicitKey : Bool) {n n' : Node} (h : Node.Reordered n n') :
      Entry.Reordered (.node explicitKey n) (.node explicitKey n')

/-- Entries under the same keys in the same order. -/
inductive EntriesReordered : List (String × Entry) → List (String × Entry) → Prop
  | nil : EntriesReordered [] []
  | cons {key : String} {e e' : Entry} {es es' : List (String × Entry)}
      (head : Entry.Reordered e e') (tail : EntriesReordered es es') :
      EntriesReordered ((key, e) :: es) ((key, e') :: es')

/-- A fragment of the same name and type whose fields are in another order, at any depth. -/
inductive Fragment.Reordered : Fragment → Fragment → Prop
  | intro {name onType : String} {es mid es' : List (String × Entry)}
      (order : es.Perm mid) (fields : EntriesReordered mid es') :
      Fragment.Reordered ⟨name, onType, ⟨es⟩⟩ ⟨name, onType, ⟨es'⟩⟩

/-- Fragments in the same order. -/
inductive FragmentsReordered : List Fragment → List Fragment → Prop
  | nil : FragmentsReordered [] []
  | cons {f f' : Fragment} {fs fs' : List Fragment} (head : Fragment.Reordered f f')
      (tail : FragmentsReordered fs fs') : FragmentsReordered (f :: fs) (f' :: fs')

end

/-- Items that differ only in the order in which arguments, conditions and fields are stored,
at any depth. -/
inductive Item.Reordered : Item → Item → Prop
  | node {n n' : Node} (h : n.Reordered n') : Item.Reordered (.node n) (.node n')
  | fragment {f f' : Fragment} (h : f.Reordered f') :
      Item.Reordered (.fragment f) (.fragment f')
  | operation {es mid es' : List (String × Entry)} {fs fs' : List Fragment} {kind : OperationKind}
      {name : String} {variableTypes : OrderedMap String} (order : es.Perm mid)
      (fields : EntriesReordered mid es') (fragments : FragmentsReordered fs fs') :
      Item.Reordered (.operation ⟨⟨es⟩, fs, kind, name, variableTypes⟩)
        (.operation ⟨⟨es'⟩, fs', kind, name, variableTypes⟩)

/-- The text of an item. -/
def Item.text : Item → String
  | node n => n.text
  | fragment f => f.text
  | operation o => o.text

/-- The fragments that are defined behind an item. -/
def Item.definedFragments : Item → List Fragment
  | node _ => []
  | fragment _ => []
  | operation o => o.definedFragments

/-! ## Texts -/

/-- Arguments are written in the order of their names, whatever order they were given in. -/
theorem argumentsText_congr {as as' : OrderedMap Value} (h : as.entries.Perm as'.entries)
    (has : as.HasDistinctKeys) : argumentsText as = argumentsText as' := by
  have hempty : as.isEmpty = as'.isEmpty := h.isEmpty_eq
  have hsorted : as.sorted = as'.sorted := sortByKey_congr h has
  rw [argumentsText, argumentsText, hempty, hsorted]

/-- The directive on an entry is looked up by its key, whatever the order of conditions is. -/
theorem Conditions.Reordered.directive?_eq {c c' : Conditions} (h : c.Reordered c')
    (hinclude : c.includeIf.HasDistinctKeys) (hskip : c.skipIf.HasDistinctKeys) (key : String) :
    c.directive? key = c'.directive? key := by
  rw [Conditions.directive?, Conditions.directive?, OrderedMap.get?_congr h.skipIf hskip,
    OrderedMap.get?_congr h.includeIf hinclude]

/-- The order of entries with distinct keys does not matter. -/
theorem joinByKey_congr {texts texts' : List (String × String)} (h : texts.Perm texts')
    (hkeys : (texts.map Prod.fst).Nodup) : joinByKey texts = joinByKey texts' := by
  rw [joinByKey, joinByKey, sortByKey_congr h hkeys]

theorem entryTexts_perm {es mid : List (String × Entry)} (h : es.Perm mid) (style : KeyStyle)
    (c : Conditions) : (entryTexts style c es).Perm (entryTexts style c mid) := by
  rw [entryTexts_eq_map, entryTexts_eq_map]
  exact h.map _

theorem map_fst_entryTexts (style : KeyStyle) (c : Conditions) (es : List (String × Entry)) :
    (entryTexts style c es).map Prod.fst = es.map Prod.fst := by
  rw [entryTexts_eq_map, List.map_map]
  rfl

/-- A type name is no map, so that it stays. -/
theorem Node.Reordered.typeName_eq {n n' : Node} (h : n.Reordered n') :
    n.typeName = n'.typeName := by
  cases h
  rfl

theorem EntriesReordered.isEmpty_eq {es es' : List (String × Entry)} (h : EntriesReordered es es') :
    es.isEmpty = es'.isEmpty := by
  cases h <;> rfl

mutual

/-- Reordered nodes are written alike. -/
theorem Node.Reordered.textWith_eq {n n' : Node} (h : n.Reordered n')
    (hn : (Item.node n).HasDistinctKeys) (directive : Option String) :
    n.textWith directive = n'.textWith directive := by
  cases h with
  | @intro typeName as as' c c' es mid es' fs fs' _ _ _ arguments conditions order fields _ =>
    have hkeyed := hn.root _ rfl
    have hbelow : ∀ t, SelectionSet.IsWithin t ⟨es⟩ → SelectionSet.IsKeyed t :=
      fun t ht => hn.below t (.inl ht)
    have htexts : joinByKey (entryTexts .always c es) = joinByKey (entryTexts .always c' es') := by
      rw [← fields.entryTexts_eq
        (fun key explicitKey m hm => SelectionSet.hasDistinctKeys_node hbelow
          (order.mem_iff.mpr hm)) .always
        (conditions.directive?_eq hkeyed.includeIf hkeyed.skipIf)]
      refine joinByKey_congr (entryTexts_perm order _ _) ?_
      rw [map_fst_entryTexts]
      exact (hbelow _ .self).keys
    have hempty : as.isEmpty = as'.isEmpty := arguments.isEmpty_eq
    rw [Node.textWith, Node.textWith, htexts, argumentsText_congr arguments hkeyed.arguments,
      hempty, order.isEmpty_eq, fields.isEmpty_eq]

/-- Entries that are reordered inside are written alike, under the same keys. -/
theorem EntriesReordered.entryTexts_eq {es es' : List (String × Entry)}
    (h : EntriesReordered es es')
    (hes : ∀ key explicitKey n, (key, .node explicitKey n) ∈ es → (Item.node n).HasDistinctKeys)
    (style : KeyStyle) {c c' : Conditions} (hc : ∀ key, c.directive? key = c'.directive? key) :
    entryTexts style c es = entryTexts style c' es' := by
  cases h with
  | nil => rfl
  | cons head tail =>
    have htail := tail.entryTexts_eq
      (fun key explicitKey n hn => hes key explicitKey n (List.mem_cons_of_mem _ hn)) style hc
    rw [entryTexts, entryTexts, htail]
    cases head with
    | field name => rw [Entry.text, Entry.text, fieldText, fieldText, hc]
    | node explicitKey h =>
      rw [Entry.text, Entry.text, h.textWith_eq (hes _ _ _ List.mem_cons_self), h.typeName_eq, hc]

end

/-- Reordered selection sets are written alike. -/
theorem SelectionSet.text_congr {es mid es' : List (String × Entry)} (order : es.Perm mid)
    (fields : EntriesReordered mid es')
    (hbelow : ∀ t, SelectionSet.IsWithin t ⟨es⟩ → SelectionSet.IsKeyed t) (style : KeyStyle)
    (c : Conditions) : SelectionSet.text style c ⟨es⟩ = SelectionSet.text style c ⟨es'⟩ := by
  rw [SelectionSet.text, SelectionSet.text, ← fields.entryTexts_eq
    (fun key explicitKey m hm => SelectionSet.hasDistinctKeys_node hbelow (order.mem_iff.mpr hm))
    style fun _ => rfl]
  refine joinByKey_congr (entryTexts_perm order _ _) ?_
  rw [map_fst_entryTexts]
  exact (hbelow _ .self).keys

/-- Reordered fragments have the same text. -/
theorem Fragment.Reordered.text_eq {f f' : Fragment} (h : f.Reordered f')
    (hf : ∀ t, SelectionSet.IsWithin t f.fields → SelectionSet.IsKeyed t) : f.text = f'.text := by
  cases h with
  | intro order fields =>
    rw [Fragment.text, Fragment.text, SelectionSet.text_congr order fields hf]

theorem Fragment.Reordered.name_eq {f f' : Fragment} (h : f.Reordered f') : f.name = f'.name := by
  cases h
  rfl

/-! ## Fragments -/

/-- Reordered selection sets have reordered fragments in the same order. -/
theorem nestedFragments_of_forall₂ {es mid es' : List (String × Entry)} (order : es.Perm mid)
    (hkeys : (es.map Prod.fst).Nodup)
    (h : List.Forall₂ (fun e e' : String × Entry => e.1 = e'.1 ∧
      List.Forall₂ Fragment.Reordered e.2.nestedFragments e'.2.nestedFragments) mid es') :
    List.Forall₂ Fragment.Reordered (SelectionSet.nestedFragments ⟨es⟩)
      (SelectionSet.nestedFragments ⟨es'⟩) := by
  rw [SelectionSet.nestedFragments_eq_flatMap, SelectionSet.nestedFragments_eq_flatMap,
    sortByKey_congr order hkeys]
  have hsorted := forall₂_sortByKey (R := fun e e' : Entry =>
    List.Forall₂ Fragment.Reordered e.nestedFragments e'.nestedFragments) h
  exact List.rel_flatMap hsorted fun _ _ he => he.2

mutual

/-- Below reordered nodes, the fragments are listed in the same order, each of them reordered. -/
theorem Node.Reordered.nestedFragments {n n' : Node} (h : n.Reordered n')
    (hn : (Item.node n).HasDistinctKeys) :
    List.Forall₂ Fragment.Reordered n.nestedFragments n'.nestedFragments := by
  cases h with
  | @intro typeName as as' c c' es mid es' fs fs' _ _ _ arguments conditions order fields
      fragments =>
    have hbelow : ∀ t, SelectionSet.IsWithin t ⟨es⟩ → SelectionSet.IsKeyed t :=
      fun t ht => hn.below t (.inl ht)
    have hfields := fields.nestedFragments fun key explicitKey m hm =>
      SelectionSet.hasDistinctKeys_node hbelow (order.mem_iff.mpr hm)
    have hattached := fragments.nestedFragments fun f hf t ht => hn.below t (.inr ⟨f, hf, ht⟩)
    rw [Node.nestedFragments_eq, Node.nestedFragments_eq]
    refine List.rel_append (List.rel_flatMap hattached fun f f' hff => .cons hff.1 ?_)
      (nestedFragments_of_forall₂ order (hbelow _ .self).keys hfields)
    rw [Fragment.nestedFragments_eq, Fragment.nestedFragments_eq]
    exact hff.2

/-- Entry by entry, the fragments below are listed in the same order, each of them reordered. -/
theorem EntriesReordered.nestedFragments {es es' : List (String × Entry)}
    (h : EntriesReordered es es')
    (hes : ∀ key explicitKey n, (key, .node explicitKey n) ∈ es → (Item.node n).HasDistinctKeys) :
    List.Forall₂ (fun e e' : String × Entry => e.1 = e'.1 ∧
      List.Forall₂ Fragment.Reordered e.2.nestedFragments e'.2.nestedFragments) es es' := by
  cases h with
  | nil => exact .nil
  | cons head tail =>
    refine .cons ⟨rfl, ?_⟩ (tail.nestedFragments fun key explicitKey n hn =>
      hes key explicitKey n (List.mem_cons_of_mem _ hn))
    cases head with
    | field name => exact .nil
    | node explicitKey h => exact h.nestedFragments (hes _ _ _ List.mem_cons_self)

theorem Fragment.Reordered.nestedFragments {f f' : Fragment} (h : f.Reordered f')
    (hf : ∀ t, SelectionSet.IsWithin t f.fields → SelectionSet.IsKeyed t) :
    List.Forall₂ Fragment.Reordered (SelectionSet.nestedFragments f.fields)
      (SelectionSet.nestedFragments f'.fields) := by
  cases h with
  | intro order fields =>
    exact nestedFragments_of_forall₂ order (hf _ .self).keys
      (fields.nestedFragments fun key explicitKey m hm =>
        SelectionSet.hasDistinctKeys_node hf (order.mem_iff.mpr hm))

theorem FragmentsReordered.nestedFragments {fs fs' : List Fragment}
    (h : FragmentsReordered fs fs')
    (hfs : ∀ f ∈ fs, ∀ t, SelectionSet.IsWithin t f.fields → SelectionSet.IsKeyed t) :
    List.Forall₂ (fun f f' : Fragment => f.Reordered f' ∧
      List.Forall₂ Fragment.Reordered (SelectionSet.nestedFragments f.fields)
        (SelectionSet.nestedFragments f'.fields)) fs fs' := by
  cases h with
  | nil => exact .nil
  | cons head tail =>
    rw [List.forall_mem_cons] at hfs
    exact .cons ⟨head, head.nestedFragments hfs.1⟩ (tail.nestedFragments hfs.2)

end

theorem map_eq_of_forall₂ {R : α → β → Prop} {f : α → γ} {g : β → γ} {as : List α} {bs : List β}
    (h : List.Forall₂ R as bs) (hfg : ∀ a ∈ as, ∀ b, R a b → f a = g b) : as.map f = bs.map g := by
  induction h with
  | nil => rfl
  | @cons a b as bs hab _ ih =>
    rw [List.forall_mem_cons] at hfg
    rw [List.map_cons, List.map_cons, hfg.1 b hab, ih hfg.2]

/-- Names decide which fragments are kept, so that the same ones are. -/
theorem firstOfEachName_of_forall₂ {fs fs' : List Fragment}
    (h : List.Forall₂ Fragment.Reordered fs fs') :
    List.Forall₂ Fragment.Reordered (firstOfEachName fs) (firstOfEachName fs') := by
  induction h with
  | nil => exact .nil
  | cons head _ ih =>
    refine .cons head (List.rel_filter (fun g g' hg => ?_) ih)
    simp only [head.name_eq, hg.name_eq]

/-- Reordered operations define reordered fragments in the same order. -/
theorem Operation.definedFragments_of_reordered {es mid es' : List (String × Entry)}
    {fs fs' : List Fragment} {kind : OperationKind} {name : String}
    {variableTypes : OrderedMap String} (order : es.Perm mid) (fields : EntriesReordered mid es')
    (fragments : FragmentsReordered fs fs')
    (ho : (Item.operation ⟨⟨es⟩, fs, kind, name, variableTypes⟩).HasDistinctKeys) :
    List.Forall₂ Fragment.Reordered
      (Operation.definedFragments ⟨⟨es⟩, fs, kind, name, variableTypes⟩)
      (Operation.definedFragments ⟨⟨es'⟩, fs', kind, name, variableTypes⟩) := by
  have hbelow : ∀ t, SelectionSet.IsWithin t ⟨es⟩ → SelectionSet.IsKeyed t :=
    fun t ht => ho.below t (.inl ht)
  have hfields := nestedFragments_of_forall₂ order (hbelow _ .self).keys
    (fields.nestedFragments fun key explicitKey m hm =>
      SelectionSet.hasDistinctKeys_node hbelow (order.mem_iff.mpr hm))
  have hown := fragments.nestedFragments fun f hf t ht => ho.below t (.inr ⟨f, hf, ht⟩)
  rw [Operation.definedFragments_eq, Operation.definedFragments_eq]
  refine firstOfEachName_of_forall₂ (List.rel_append (hown.imp fun _ _ hff => hff.1) ?_)
  exact List.rel_append (List.rel_flatMap hown fun _ _ hff => hff.2) hfields

/-- The text of an operation depends on its fields and the fragments behind it only. -/
theorem Operation.text_congr {es mid es' : List (String × Entry)}
    {fs fs' : List Fragment} {kind : OperationKind} {name : String}
    {variableTypes : OrderedMap String} (order : es.Perm mid) (fields : EntriesReordered mid es')
    (fragments : FragmentsReordered fs fs')
    (ho : (Item.operation ⟨⟨es⟩, fs, kind, name, variableTypes⟩).HasDistinctKeys) :
    Operation.text ⟨⟨es⟩, fs, kind, name, variableTypes⟩ =
      Operation.text ⟨⟨es'⟩, fs', kind, name, variableTypes⟩ := by
  have hfields := SelectionSet.text_congr order fields
    (fun t ht => ho.below t (.inl ht)) .always .empty
  have hdefined := Operation.definedFragments_of_reordered order fields fragments ho
  have htexts := map_eq_of_forall₂ (f := fun f : Fragment => "\n\n" ++ f.text) hdefined
    fun f hf f' hff => congrArg _ (hff.text_eq fun t ht =>
      ho.below t ((Operation.attaches_of_mem_definedFragments hf).holds ht))
  rw [Operation.text, Operation.text, hfields, htexts]
  rfl

/-! ## Rows by key -/

/-- A text that lists entries, each of them once, the bytes of their keys strictly ascending. -/
def ListsByKey (write : String × α → String) (entries : List (String × α)) (text : String) : Prop :=
  ∃ rows : List (String × α), rows.Perm entries ∧
    rows.Pairwise (fun a b => utf8Bytes a.1 < utf8Bytes b.1) ∧
    text = ", ".intercalate (rows.map write)

theorem listsByKey_sortByKey (write : String × α → String) {es : List (String × α)}
    (h : (es.map Prod.fst).Nodup) :
    ListsByKey write es (", ".intercalate ((sortByKey es).map write)) :=
  ⟨sortByKey es, sortByKey_perm es,
    (pairwise_sortByKey h).imp fun hab => utf8Bytes_lt_iff.mpr hab, rfl⟩

/-- **Reordering**: the text of an item and the names of the fragments defined behind it do not
depend on the order in which arguments, conditions and fields are stored, at any depth; and
each selection set and each list of arguments in it is written entry by entry, in the order of
the bytes of the keys. -/
theorem Item.text_eq_of_reordered {x y : Item} (hx : x.HasDistinctKeys) (h : x.Reordered y) :
    x.text = y.text ∧
      x.definedFragments.map Fragment.name = y.definedFragments.map Fragment.name ∧
      (∀ t, x.Holds t → ∀ style conditions,
        ListsByKey (fun e => e.2.text style conditions e.1) t.entries (t.text style conditions)) ∧
      ∀ n, (x = .node n ∨ ∃ t key explicitKey, x.Holds t ∧ (key, .node explicitKey n) ∈ t.entries) →
        n.arguments.isEmpty = false → ∃ text, argumentsText n.arguments = "(" ++ text ++ ")" ∧
          ListsByKey (fun a => a.1 ++ ": " ++ a.2.text) n.arguments.entries text := by
  refine ⟨?_, ?_, fun t ht style conditions => ?_, fun n hn hne => ?_⟩
  · cases h with
    | node h => exact h.textWith_eq hx none
    | fragment h => exact h.text_eq fun t ht => hx.below t (.inl ht)
    | operation order fields fragments =>
      exact Operation.text_congr order fields fragments hx
  · cases h with
    | node h => rfl
    | fragment h => rfl
    | operation order fields fragments =>
      exact map_eq_of_forall₂ (Operation.definedFragments_of_reordered order fields fragments hx)
        fun f _ f' hff => hff.name_eq
  · rw [t.text_eq style conditions]
    exact listsByKey_sortByKey _ (hx.below t ht).keys
  · have hkeyed : n.IsKeyed := by
      rcases hn with rfl | ⟨t, key, explicitKey, ht, hn⟩
      · exact hx.root n rfl
      · exact (hx.below t ht).nodes key explicitKey n hn
    refine ⟨_, ?_, listsByKey_sortByKey _ hkeyed.arguments⟩
    rw [argumentsText, hne, if_neg Bool.false_ne_true]
    rfl

/-- Attaching under a key sees no order. -/
theorem Node.Reordered.attached {n n' : Node} (h : n.Reordered n') (key : Option String) :
    (n.attached key).Reordered (n'.attached key) := by
  cases h with
  | intro arguments conditions order fields fragments =>
    cases key with
    | none => exact .intro arguments conditions order fields fragments
    | some key => exact .intro arguments conditions order fields fragments

/-- A node with its arguments and fields in this order. -/
def sampleItem (arguments : List (String × Value)) (fields : List Selection) : Node :=
  ((Node.build .query "item" arguments fields).skipIf
    [("y", ⟨"hidden"⟩), ("x", ⟨"short"⟩)]).addFragment (.build "Rest" "Item" fields)

/-- A query for two nodes, in this order. -/
def sampleQuery (first second : Selection) : Operation :=
  (Operation.new .query "").selectAll [first, second]

def orderedItem : Node := sampleItem [("a", .null), ("b", .bool true)] [.field "x", .field "y"]

def turnedItem : Node := sampleItem [("b", .bool true), ("a", .null)] [.field "y", .field "x"]

theorem reordered_turnedItem : orderedItem.Reordered turnedItem :=
  .intro (.swap _ _ _) ⟨.refl _, .refl _⟩ (.swap _ _ _)
    (.cons (.field "y") (.cons (.field "x") .nil))
    (.cons (.intro (.swap _ _ _) (.cons (.field "y") (.cons (.field "x") .nil))) .nil)

theorem reordered_sampleQuery :
    (Item.operation (sampleQuery (.nodeAs "n" orderedItem) (.nodeAs "m" orderedItem))).Reordered
      (.operation (sampleQuery (.nodeAs "m" turnedItem) (.nodeAs "n" turnedItem))) :=
  .operation (.swap _ _ _)
    (.cons (.node true (reordered_turnedItem.attached (some "m")))
      (.cons (.node true (reordered_turnedItem.attached (some "n"))) .nil)) .nil

theorem built_orderedItem : (Item.node orderedItem).Built :=
  .addFragmentToNode (.skipIf (.buildNode _ _ _ (by simp [Selection.node?])) _)
    (.buildFragment _ _ (by simp [Selection.node?]))

theorem hasDistinctKeys_sampleQuery :
    (Item.operation (sampleQuery (.nodeAs "n" orderedItem)
      (.nodeAs "m" orderedItem))).HasDistinctKeys := by
  have hquery : (Item.operation (sampleQuery (.nodeAs "n" orderedItem)
      (.nodeAs "m" orderedItem))).Built := by
    refine .selectAll (x := .operation (.new .query "")) (.newOperation .query "") ?_
    refine List.forall_mem_cons.mpr ⟨?_, List.forall_mem_singleton.mpr ?_⟩
    all_goals
      rintro m ⟨⟩
      exact built_orderedItem
  exact hquery.isSound.hasDistinctKeys

/-- What the query for both nodes is written as, in whichever order. -/
def sampleText : String :=
  "query \x7b m: item (a: null, b: true) \x7b x @skip(if: $short), y @skip(if: $hidden) \x7d, " ++
  "n: item (a: null, b: true) \x7b x @skip(if: $short), y @skip(if: $hidden) \x7d \x7d\n\n" ++
  "fragment Rest on Item \x7b x, y \x7d"

set_option maxRecDepth 1024 in
theorem text_orderedQuery :
    (sampleQuery (.nodeAs "n" orderedItem) (.nodeAs "m" orderedItem)).text = sampleText := by
  cbv

theorem text_sampleQuery :
    (Item.operation (sampleQuery (.nodeAs "n" orderedItem)
        (.nodeAs "m" orderedItem))).HasDistinctKeys ∧
      (Item.operation (sampleQuery (.nodeAs "n" orderedItem) (.nodeAs "m" orderedItem))).Reordered
        (.operation (sampleQuery (.nodeAs "m" turnedItem) (.nodeAs "n" turnedItem))) ∧
      (sampleQuery (.nodeAs "n" orderedItem) (.nodeAs "m" orderedItem)).text =
        (sampleQuery (.nodeAs "m" turnedItem) (.nodeAs "n" turnedItem)).text ∧
      (sampleQuery (.nodeAs "m" turnedItem) (.nodeAs "n" turnedItem)).text = sampleText ∧
      orderedItem.arguments.isEmpty = false ∧
      argumentsText orderedItem.arguments = "(a: null, b: true)" ∧
      ∃ text, argumentsText orderedItem.arguments = "(" ++ text ++ ")" ∧
        ListsByKey (fun a => a.1 ++ ": " ++ a.2.text) orderedItem.arguments.entries text := by
  have hkeys := hasDistinctKeys_sampleQuery
  obtain ⟨htext, -, -, harguments⟩ := Item.text_eq_of_reordered hkeys reordered_sampleQuery
  refine ⟨hkeys, reordered_sampleQuery, htext, htext.symm.trans text_orderedQuery, rfl,
    by cbv, harguments (orderedItem.attached (some "n")) (.inr ?_) rfl⟩
  exact ⟨_, "n", true, .inl .self, List.mem_cons_self⟩

end QueryDoc
