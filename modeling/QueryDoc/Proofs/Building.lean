import QueryDoc.Proofs.Source.Masking
import QueryDoc.Proofs.Tree

/-!
# QueryDoc.Proofs.Building

What holds of everything that is built by calls of the builder, in any order. `Item.Built` has
one constructor for each call, and two for taking a node or a fragment out of what has been built.

Every selection set in it, at any depth, is sound (`SelectionSet.IsSound`): each call stores
entries as `Selection.entry` makes them, and nothing changes an entry afterwards. So the
response key that a field is written with is the key that it is stored under, and no two
fields of a selection set have the same one (`SelectionSet.responseKeys_of_built`).
-/

namespace QueryDoc

/-! ## What can be built -/

/-- The node that a selection brings along. -/
def Selection.node? : Selection → Option Node
  | .field _ => none
  | .fieldAs _ _ => none
  | .node n => some n
  | .nodeAs _ n => some n

namespace Item

/-- Make one selection. -/
def select : Item → Selection → Item
  | node n, s => node (n.select s)
  | fragment f, s => fragment (f.select s)
  | operation o, s => operation (o.select s)

/-- Make selections in order. -/
def selectAll : Item → List Selection → Item
  | node n, ss => node (n.selectAll ss)
  | fragment f, ss => fragment (f.selectAll ss)
  | operation o, ss => operation (o.selectAll ss)

/-- Take away what stands under these keys. -/
def deselect : Item → List String → Item
  | node n, keys => node (n.deselect keys)
  | fragment f, keys => fragment (f.deselect keys)
  | operation o, keys => operation (o.deselect keys)

/-- Items made by calls of the builder. -/
inductive Built : Item → Prop
  | newNode (kind : OperationKind) : Built (.node (.new kind))
  | buildNode (kind : OperationKind) (typeName : String) (arguments : List (String × Value))
      {selections : List Selection}
      (hs : ∀ s ∈ selections, ∀ m, s.node? = some m → Built (.node m)) :
      Built (.node (.build kind typeName arguments selections))
  | newFragment (name onType : String) : Built (.fragment (.new name onType))
  | buildFragment (name onType : String) {selections : List Selection}
      (hs : ∀ s ∈ selections, ∀ m, s.node? = some m → Built (.node m)) :
      Built (.fragment (.build name onType selections))
  | newOperation (kind : OperationKind) (name : String) : Built (.operation (.new kind name))
  | operationOfKeyword {keyword name : String} {o : Operation}
      (ho : Operation.ofKeyword keyword name = .ok o) : Built (.operation o)
  | buildOperation {keyword name : String} {types : List (String × String)}
      {selections : List Selection} {o : Operation}
      (hs : ∀ s ∈ selections, ∀ m, s.node? = some m → Built (.node m))
      (ho : Operation.build keyword name types selections = .ok o) : Built (.operation o)
  | toOperation {n : Node} (h : Built (.node n)) : Built (.operation n.toOperation)
  | select {x : Item} (h : Built x) {s : Selection}
      (hs : ∀ m, s.node? = some m → Built (.node m)) : Built (x.select s)
  | selectAll {x : Item} (h : Built x) {selections : List Selection}
      (hs : ∀ s ∈ selections, ∀ m, s.node? = some m → Built (.node m)) :
      Built (x.selectAll selections)
  | deselect {x : Item} (h : Built x) (keys : List String) : Built (x.deselect keys)
  | withTypeName {n : Node} (h : Built (.node n)) (name : String) :
      Built (.node (n.withTypeName name))
  | argument {n : Node} (h : Built (.node n)) (name : String) (value : Value) :
      Built (.node (n.argument name value))
  | withArguments {n : Node} (h : Built (.node n)) (arguments : List (String × Value)) :
      Built (.node (n.withArguments arguments))
  | skipIf {n : Node} (h : Built (.node n)) (conditions : List (String × VariableRef)) :
      Built (.node (n.skipIf conditions))
  | includeIf {n : Node} (h : Built (.node n)) (conditions : List (String × VariableRef)) :
      Built (.node (n.includeIf conditions))
  | withOperationName {n : Node} (h : Built (.node n)) (name : String) :
      Built (.node (n.withOperationName name))
  | addFragmentToNode {n : Node} (h : Built (.node n)) {f : Fragment} (hf : Built (.fragment f)) :
      Built (.node (n.addFragment f))
  | addFragment {o : Operation} (h : Built (.operation o)) {f : Fragment}
      (hf : Built (.fragment f)) : Built (.operation (o.addFragment f))
  | declare {o : Operation} (h : Built (.operation o)) (name type : String) :
      Built (.operation (o.declare name type))
  | declareAll {o : Operation} (h : Built (.operation o)) (types : List (String × String)) :
      Built (.operation (o.declareAll types))
  /-- A node that is stored in an item can be selected again elsewhere. -/
  | takeNode {x : Item} (h : Built x) {key : String} {explicitKey : Bool} {n : Node}
      (hn : (key, .node explicitKey n) ∈ x.fields.entries) : Built (.node n)
  | takeFragment {x : Item} (h : Built x) {f : Fragment} (hf : f ∈ x.fragments) :
      Built (.fragment f)

end Item

/-! ## Sound selection sets -/

/-- What selecting makes of a node: it is no operation any more, without a chosen key its type
name is its key, and with one that is not empty it has a type name. -/
structure Node.StandsUnder (key : String) (explicitKey : Bool) (n : Node) : Prop where
  isOperation : n.isOperation = false
  typeName : explicitKey = false → key = n.typeName
  named : explicitKey = true → key ≠ "" → n.typeName ≠ ""

/-- A selection set whose keys are distinct and whose nodes are as selecting makes them. -/
structure SelectionSet.IsSound (s : SelectionSet) : Prop where
  keyed : SelectionSet.IsKeyed s
  stands : ∀ key explicitKey n, (key, .node explicitKey n) ∈ s.entries →
    n.StandsUnder key explicitKey

/-- An item with sound selection sets only. -/
structure Item.IsSound (x : Item) : Prop where
  root : ∀ n, x = .node n → n.IsKeyed
  below : ∀ t, x.Holds t → SelectionSet.IsSound t

/-- A sound item has every key of every map once. -/
theorem Item.IsSound.hasDistinctKeys {x : Item} (h : x.IsSound) : x.HasDistinctKeys :=
  ⟨h.root, fun t ht => (h.below t ht).keyed⟩

namespace SelectionSet

/-- All selection sets within this one are sound. -/
def AllSound (s : SelectionSet) : Prop := ∀ t, SelectionSet.IsWithin t s → SelectionSet.IsSound t

/-- It is enough to look at the nodes of a selection set. -/
theorem allSound_iff {s : SelectionSet} : AllSound s ↔ OrderedMap.HasDistinctKeys s ∧
    ∀ key explicitKey n, (key, .node explicitKey n) ∈ s.entries →
      n.StandsUnder key explicitKey ∧ (Item.node n).IsSound := by
  constructor
  · intro h
    refine ⟨(h s .self).keyed.keys, fun key explicitKey n hn => ⟨(h s .self).stands _ _ _ hn, ?_⟩⟩
    exact ⟨(hasDistinctKeys_node (fun t ht => (h t ht).keyed) hn).root,
      fun t ht => h t (.of_holds hn ht)⟩
  · rintro ⟨hkeys, hnodes⟩ t ht
    obtain rfl | ⟨key, explicitKey, n, hn, hholds⟩ := ht.eq_or_holds
    · exact ⟨⟨hkeys, fun key explicitKey n hn => (hnodes key explicitKey n hn).2.root n rfl⟩,
        fun key explicitKey n hn => (hnodes key explicitKey n hn).1⟩
    · exact (hnodes key explicitKey n hn).2.below t hholds

theorem allSound_empty : AllSound .empty := allSound_iff.mpr ⟨List.nodup_nil, nofun⟩

end SelectionSet

/-- Soundness of an item, part by part. -/
theorem Item.isSound_iff {x : Item} : x.IsSound ↔ (∀ n, x = .node n → n.IsKeyed) ∧
    SelectionSet.AllSound x.fields ∧ ∀ f ∈ x.fragments, SelectionSet.AllSound f.fields := by
  constructor
  · intro h
    exact ⟨h.root, fun t ht => h.below t (.inl ht), fun f hf t ht => h.below t (.inr ⟨f, hf, ht⟩)⟩
  · rintro ⟨hroot, hfields, hfragments⟩
    refine ⟨hroot, fun t ht => ?_⟩
    rcases ht with ht | ⟨f, hf, ht⟩
    · exact hfields t ht
    · exact hfragments f hf t ht

/-! ## Selecting -/

theorem OrderedMap.mem_put {key : String} {value : α} {es : List (String × α)} {e : String × α}
    (h : e ∈ OrderedMap.put key value es) : e = (key, value) ∨ e ∈ es := by
  induction es with
  | nil => exact .inl (List.mem_singleton.mp h)
  | cons e' es ih =>
    rw [OrderedMap.put] at h
    split at h
    · exact (List.mem_cons.mp h).imp_right (List.mem_cons_of_mem e')
    · rcases List.mem_cons.mp h with rfl | h
      · exact .inr List.mem_cons_self
      · exact (ih h).imp_right (List.mem_cons_of_mem e')

/-- A type name is only given to a node that has none. -/
theorem Node.typeName_attached {n : Node} (h : n.typeName ≠ "") (key : Option String) :
    (n.attached key).typeName = n.typeName := by
  cases key with
  | none => rfl
  | some key => exact if_neg h

/-- Attaching under a key changes no map. -/
theorem Node.isSound_attached {n : Node} (h : (Item.node n).IsSound) (key : Option String) :
    (Item.node (n.attached key)).IsSound := by
  obtain ⟨hroot, hfields, hfragments⟩ := Item.isSound_iff.mp h
  have hkeyed := hroot n rfl
  refine Item.isSound_iff.mpr ?_
  cases key with
  | none => exact ⟨fun m hm => by cases hm; exact hkeyed.congr rfl rfl, hfields, hfragments⟩
  | some key => exact ⟨fun m hm => by cases hm; exact hkeyed.congr rfl rfl, hfields, hfragments⟩

/-- What a selection makes stands under the key of the selection. -/
theorem Selection.standsUnder_entry {s : Selection}
    (hs : ∀ m, s.node? = some m → (Item.node m).IsSound) {explicitKey : Bool} {n : Node}
    (h : s.entry = .node explicitKey n) :
    n.StandsUnder s.key explicitKey ∧ (Item.node n).IsSound := by
  cases s with
  | field name => cases h
  | fieldAs key name => cases h
  | node m =>
    cases h
    exact ⟨⟨rfl, fun _ => rfl, nofun⟩, Node.isSound_attached (hs m rfl) none⟩
  | nodeAs key m =>
    cases h
    refine ⟨⟨rfl, nofun, fun _ hkey => ?_⟩, Node.isSound_attached (hs m rfl) (some key)⟩
    by_cases hm : m.typeName = ""
    · simpa [Node.attached, hm] using (show key ≠ "" from hkey)
    · rwa [Node.typeName_attached hm]

namespace SelectionSet

variable {s : SelectionSet}

/-- Selecting keeps a selection set sound, if what is selected is. -/
theorem AllSound.select (h : AllSound s) {selection : Selection}
    (hs : ∀ m, selection.node? = some m → (Item.node m).IsSound) :
    AllSound (s.select selection) := by
  obtain ⟨hkeys, hnodes⟩ := allSound_iff.mp h
  rw [select_eq]
  refine allSound_iff.mpr ⟨hkeys.insert _ _, fun key explicitKey n hn => ?_⟩
  rcases OrderedMap.mem_put hn with heq | hn
  · obtain ⟨rfl, hentry⟩ := Prod.mk.inj heq
    exact selection.standsUnder_entry hs hentry.symm
  · exact hnodes key explicitKey n hn

/-- Selecting keeps a selection set sound, by induction on what is selected. -/
theorem AllSound.selectAll (h : AllSound s) {selections : List Selection}
    (hs : ∀ selection ∈ selections, ∀ m, selection.node? = some m → (Item.node m).IsSound) :
    AllSound (s.selectAll selections) := by
  induction selections generalizing s with
  | nil => exact h
  | cons selection selections ih =>
    rw [List.forall_mem_cons] at hs
    exact ih (h.select hs.1) hs.2

/-- What is left after taking entries away was there before. -/
theorem AllSound.deselect (h : AllSound s) (keys : List String) : AllSound (s.deselect keys) := by
  induction keys generalizing s with
  | nil => exact h
  | cons key keys ih =>
    refine ih (allSound_iff.mpr ?_)
    obtain ⟨hkeys, hnodes⟩ := allSound_iff.mp h
    exact ⟨hkeys.erase key, fun key' explicitKey n hn =>
      hnodes key' explicitKey n (List.mem_filter.mp hn).1⟩

end SelectionSet

/-! ## Calls keep items sound -/

namespace Item

variable {x y : Item}

/-- An item is sound if its own selection set is and it has the fragments of a sound one. -/
theorem IsSound.with_fields (h : x.IsSound) (hroot : ∀ n, y = .node n → n.IsKeyed)
    (hfields : SelectionSet.AllSound y.fields) (hfragments : y.fragments = x.fragments) :
    y.IsSound :=
  isSound_iff.mpr ⟨hroot, hfields, hfragments ▸ (isSound_iff.mp h).2.2⟩

theorem IsSound.selectAll (h : x.IsSound) {selections : List Selection}
    (hs : ∀ s ∈ selections, ∀ m, s.node? = some m → (Item.node m).IsSound) :
    (x.selectAll selections).IsSound := by
  have hfields := (isSound_iff.mp h).2.1.selectAll hs
  cases x with
  | node n =>
    exact h.with_fields (fun m hm => by cases hm; exact (h.root n rfl).congr rfl rfl)
      hfields rfl
  | fragment f => exact h.with_fields nofun hfields rfl
  | operation o => exact h.with_fields nofun hfields rfl

theorem IsSound.select (h : x.IsSound) {s : Selection}
    (hs : ∀ m, s.node? = some m → (Item.node m).IsSound) : (x.select s).IsSound := by
  have hall := h.selectAll (List.forall_mem_singleton.mpr hs)
  cases x <;> exact hall

theorem IsSound.deselect (h : x.IsSound) (keys : List String) : (x.deselect keys).IsSound := by
  have hfields := (isSound_iff.mp h).2.1.deselect keys
  cases x with
  | node n =>
    exact h.with_fields (fun m hm => by cases hm; exact (h.root n rfl).congr rfl rfl)
      hfields rfl
  | fragment f => exact h.with_fields nofun hfields rfl
  | operation o => exact h.with_fields nofun hfields rfl

/-- Changes to a node that leave its selection set and its fragments alone. -/
theorem IsSound.with_maps {n m : Node} (h : (Item.node n).IsSound) (hm : m.IsKeyed)
    (hfields : m.fields = n.fields) (hfragments : m.fragments = n.fragments) :
    (Item.node m).IsSound := by
  refine h.with_fields (fun _ heq => by cases heq; exact hm) ?_ hfragments
  rw [Item.fields, hfields]
  exact (isSound_iff.mp h).2.1

/-- A new node has no entries. -/
theorem isSound_newNode (kind : OperationKind) : (Item.node (.new kind)).IsSound :=
  isSound_iff.mpr ⟨fun n hn => by cases hn; exact ⟨List.nodup_nil, List.nodup_nil, List.nodup_nil⟩,
    SelectionSet.allSound_empty, List.forall_mem_nil _⟩

theorem isSound_newFragment (name onType : String) :
    (Item.fragment (.new name onType)).IsSound :=
  isSound_iff.mpr ⟨nofun, SelectionSet.allSound_empty, List.forall_mem_nil _⟩

theorem isSound_newOperation (kind : OperationKind) (name : String) :
    (Item.operation (.new kind name)).IsSound :=
  isSound_iff.mpr ⟨nofun, SelectionSet.allSound_empty, List.forall_mem_nil _⟩

/-- An operation made from its keyword has no entries. -/
theorem isSound_operationOfKeyword {keyword name : String} {o : Operation}
    (h : Operation.ofKeyword keyword name = .ok o) : (Item.operation o).IsSound := by
  rw [Operation.ofKeyword] at h
  cases hkind : OperationKind.ofKeyword keyword with
  | error e =>
    rw [hkind] at h
    contradiction
  | ok kind =>
    rw [hkind] at h
    cases h
    exact isSound_newOperation kind name

/-- Declaring variables leaves the selections alone. -/
theorem isSound_declareAll {o : Operation} (h : (Item.operation o).IsSound)
    (types : List (String × String)) : (Item.operation (o.declareAll types)).IsSound := by
  induction types generalizing o with
  | nil => exact h
  | cons v types ih =>
    exact ih (o := o.declare v.1 v.2) (h.with_fields nofun (isSound_iff.mp h).2.1 rfl)

/-- Building an operation is making a new one, then declaring, then selecting. -/
theorem exists_of_build {keyword name : String} {types : List (String × String)}
    {selections : List Selection} {o : Operation}
    (h : Operation.build keyword name types selections = .ok o) :
    ∃ new, Operation.ofKeyword keyword name = .ok new ∧
      o = (new.declareAll types).selectAll selections := by
  rw [Operation.build] at h
  cases hnew : Operation.ofKeyword keyword name with
  | error e =>
    rw [hnew] at h
    contradiction
  | ok new =>
    rw [hnew] at h
    cases h
    exact ⟨new, rfl, rfl⟩

/-- **Building**: whatever is built is sound. -/
theorem Built.isSound (h : x.Built) : x.IsSound := by
  induction h with
  | newNode kind => exact isSound_newNode kind
  | buildNode kind typeName arguments _ ih =>
    -- Before anything is selected, the node has no entries, and every argument once.
    have hnew := isSound_newNode kind
    have hkeyed := hnew.root _ rfl
    exact IsSound.selectAll (x := .node (((Node.new kind).withTypeName typeName).withArguments
      arguments)) (hnew.with_maps ⟨hkeyed.arguments.insertAll arguments, hkeyed.includeIf,
        hkeyed.skipIf⟩ rfl rfl) ih
  | newFragment name onType => exact isSound_newFragment name onType
  | buildFragment name onType _ ih => exact (isSound_newFragment name onType).selectAll ih
  | newOperation kind name => exact isSound_newOperation kind name
  | operationOfKeyword ho => exact isSound_operationOfKeyword ho
  | buildOperation _ ho ih =>
    obtain ⟨new, hnew, rfl⟩ := exists_of_build ho
    exact (isSound_declareAll (isSound_operationOfKeyword hnew) _).selectAll ih
  | toOperation _ ih =>
    exact (isSound_newOperation _ _).select fun m hm => by cases hm; exact ih
  | select _ _ ih ihs => exact ih.select ihs
  | selectAll _ _ ih ihs => exact ih.selectAll ihs
  | deselect _ keys ih => exact ih.deselect keys
  | withTypeName _ name ih => exact ih.with_maps ((ih.root _ rfl).congr rfl rfl) rfl rfl
  | argument _ name value ih =>
    have hkeyed := ih.root _ rfl
    exact ih.with_maps ⟨hkeyed.arguments.insert name value, hkeyed.includeIf, hkeyed.skipIf⟩ rfl rfl
  | withArguments _ arguments ih =>
    have hkeyed := ih.root _ rfl
    exact ih.with_maps
      ⟨hkeyed.arguments.insertAll arguments, hkeyed.includeIf, hkeyed.skipIf⟩ rfl rfl
  | skipIf _ conditions ih =>
    have hkeyed := ih.root _ rfl
    exact ih.with_maps
      ⟨hkeyed.arguments, hkeyed.includeIf, hkeyed.skipIf.insertAll conditions⟩ rfl rfl
  | includeIf _ conditions ih =>
    have hkeyed := ih.root _ rfl
    exact ih.with_maps
      ⟨hkeyed.arguments, hkeyed.includeIf.insertAll conditions, hkeyed.skipIf⟩ rfl rfl
  | withOperationName _ name ih => exact ih.with_maps ((ih.root _ rfl).congr rfl rfl) rfl rfl
  | addFragmentToNode _ _ ih ihf =>
    obtain ⟨hroot, hfields, hfragments⟩ := isSound_iff.mp ih
    refine isSound_iff.mpr ⟨fun m hm => ?_, hfields, List.forall_mem_append.mpr
      ⟨hfragments, List.forall_mem_singleton.mpr (isSound_iff.mp ihf).2.1⟩⟩
    cases hm
    exact (hroot _ rfl).congr rfl rfl
  | addFragment _ _ ih ihf =>
    obtain ⟨-, hfields, hfragments⟩ := isSound_iff.mp ih
    exact isSound_iff.mpr ⟨nofun, hfields, List.forall_mem_append.mpr
      ⟨hfragments, List.forall_mem_singleton.mpr (isSound_iff.mp ihf).2.1⟩⟩
  | declare _ name type ih => exact ih.with_fields nofun (isSound_iff.mp ih).2.1 rfl
  | declareAll _ types ih => exact isSound_declareAll ih types
  | takeNode _ hn ih => exact ((SelectionSet.allSound_iff.mp (isSound_iff.mp ih).2.1).2 _ _ _ hn).2
  | takeFragment _ hf ih =>
    exact isSound_iff.mpr ⟨nofun, (isSound_iff.mp ih).2.2 _ hf, List.forall_mem_nil _⟩

end Item

/-! ## Response keys -/

/-- The response key that a field is written with: its alias, in front of a colon, or else its
name. -/
def writtenKey? (text : String) : Option String :=
  match Source.tokens text.toList with
  | ⟨.name, key⟩ :: ⟨.punctuator ':', _⟩ :: _ => some (String.ofList key)
  | ⟨.name, name⟩ :: _ => some (String.ofList name)
  | _ => none

/-- A text that is empty or starts with a blank. -/
def StartsBlank (cs : List Char) : Prop := ∀ c ∈ cs.head?, c = ' '

theorem StartsBlank.append {cs ds : List Char} (hc : StartsBlank cs) (hd : StartsBlank ds) :
    StartsBlank (cs ++ ds) := by
  cases cs with
  | nil => exact hd
  | cons c cs => exact hc

theorem startsBlank_cons (cs : List Char) : StartsBlank (' ' :: cs) := by simp [StartsBlank]

theorem startsBlank_spaced (text : Option String) : StartsBlank (spaced text).toList := by
  cases text with
  | none => exact nofun
  | some text =>
    rw [spaced, String.toList_append]
    exact startsBlank_cons _

/-- A name in front of something else is the key of the field. -/
theorem writtenKey?_eq {text key : String} (hkey : isName key.toList = true) {rest : List Char}
    (htext : text.toList = key.toList ++ rest) (hrest : ∀ c ∈ rest.head?, isNameChar c = false) :
    writtenKey? text = some key := by
  have htokens : Source.tokens text.toList = ⟨.name, key.toList⟩ :: Source.tokens rest := by
    rw [htext]
    exact Source.tokens_append_of_endsBefore (Source.endsBefore_name hkey hrest)
  rw [writtenKey?, htokens]
  split
  · next heq => rw [← (Source.Token.mk.inj (List.cons.inj heq).1).2, String.ofList_toList]
  · next heq => rw [← (Source.Token.mk.inj (List.cons.inj heq).1).2, String.ofList_toList]
  · next hne => exact absurd rfl (hne _ _)

/-- A name ends in front of a blank. -/
theorem StartsBlank.not_isNameChar {cs : List Char} (h : StartsBlank cs) :
    ∀ c ∈ cs.head?, isNameChar c = false := by
  intro c hc
  rw [h c hc]
  decide

theorem isNameChar_of_colon {cs : List Char} :
    ∀ c ∈ (":".toList ++ cs).head?, isNameChar c = false := by
  intro c hc
  cases hc
  decide

/-- A node is written with its type name in front. -/
theorem Node.exists_textWith (n : Node) (directive : Option String) :
    ∃ rest, (n.textWith directive).toList = n.typeName.toList ++ rest ∧ StartsBlank rest := by
  obtain ⟨typeName, arguments, conditions, ⟨entries⟩, _, _, _, _⟩ := n
  simp only [Node.textWith, String.toList_append, List.append_assoc]
  refine ⟨_, rfl, .append ?_ (.append (startsBlank_spaced directive) ?_)⟩
  · split
    · exact nofun
    · rw [String.toList_append]
      exact startsBlank_cons _
  · split
    · exact nofun
    · simp only [String.toList_append]
      exact startsBlank_cons _

/-- The name of a plain field, or the type name of a node. -/
def Entry.ownName : Entry → String
  | .field name => name
  | .node _ n => n.typeName

/-- A selection set whose keys and fields have names, spreads left aside. -/
def SelectionSet.HasNames (s : SelectionSet) : Prop :=
  ∀ e ∈ s.entries, e.2.isSpread = false →
    isName e.1.toList = true ∧ isName e.2.ownName.toList = true

/-- A field is written with the key that it is stored under. -/
theorem Entry.writtenKey?_text {key : String} {e : Entry} (hspread : e.isSpread = false)
    (hkey : isName key.toList = true) (hname : isName e.ownName.toList = true)
    (hstands : ∀ explicitKey n, e = .node explicitKey n → n.StandsUnder key explicitKey)
    (style : KeyStyle) (conditions : Conditions) :
    writtenKey? (e.text style conditions key) = some key := by
  have halias (text : String) : writtenKey? (key ++ ": " ++ text) = some key := by
    have htext : (key ++ ": " ++ text).toList =
        key.toList ++ (":".toList ++ (" ".toList ++ text.toList)) := by simp
    exact writtenKey?_eq hkey htext isNameChar_of_colon
  cases e with
  | field name =>
    have hfield : QueryDoc.isSpread name = false := hspread
    rw [Entry.text, fieldText, hfield, if_neg Bool.false_ne_true]
    split
    · next heq =>
      subst heq
      exact writtenKey?_eq hkey String.toList_append (startsBlank_spaced _).not_isNameChar
    · rw [String.append_assoc]
      exact halias _
  | node explicitKey n =>
    rw [Entry.text]
    split
    · exact halias _
    · next hwrites =>
      -- Without its key in front, a node has its key as type name.
      have htype : key = n.typeName := by
        cases explicitKey with
        | false => exact (hstands false n rfl).typeName rfl
        | true =>
          cases style with
          | always => exact absurd rfl hwrites
          | whenDistinct => simpa [KeyStyle.writes] using hwrites
      obtain ⟨rest, hrest, hblank⟩ := n.exists_textWith (conditions.directive? key)
      rw [String.empty_append]
      exact writtenKey?_eq hkey (htype ▸ hrest) hblank.not_isNameChar

/-- Whether a selection set stands somewhere in something that has been built. -/
def SelectionSet.IsBuilt (t : SelectionSet) : Prop := ∃ x : Item, x.Built ∧ x.Holds t

/-- **Response keys**: at any depth of what has been built, the nodes are as selecting makes
them. So where keys and fields have names, each field is written with the key that it is stored
under, whatever the style, and a selection set is written with no key twice. -/
theorem SelectionSet.responseKeys_of_built {t : SelectionSet} (h : t.IsBuilt) :
    (∀ key explicitKey n, (key, .node explicitKey n) ∈ t.entries →
      n.isOperation = false ∧ (explicitKey = false → key = n.typeName) ∧
        (explicitKey = true → key ≠ "" → n.typeName ≠ "")) ∧
    (t.HasNames → ∀ style conditions,
      (∀ e ∈ t.entries, e.2.isSpread = false →
        writtenKey? (e.2.text style conditions e.1) = some e.1) ∧
      ∃ rows : List (String × Entry), rows.Perm t.entries ∧
        t.text style conditions =
          ", ".intercalate (rows.map fun e => e.2.text style conditions e.1) ∧
        ((rows.filter fun e => !e.2.isSpread).map fun e =>
          writtenKey? (e.2.text style conditions e.1)).Nodup) ∧
    ∀ (n : Node) (key : Option String), n.typeName ≠ "" →
      (n.attached key).typeName = n.typeName := by
  obtain ⟨x, hx, hholds⟩ := h
  have hsound := hx.isSound.below t hholds
  refine ⟨fun key explicitKey n hn => ?_, fun hnames style conditions => ?_,
    fun n key hn => n.typeName_attached hn key⟩
  · obtain ⟨hoperation, htype, hnamed⟩ := hsound.stands key explicitKey n hn
    exact ⟨hoperation, htype, hnamed⟩
  · have hwritten (e : String × Entry) (he : e ∈ t.entries) (hspread : e.2.isSpread = false) :
        writtenKey? (e.2.text style conditions e.1) = some e.1 := by
      obtain ⟨hkey, hname⟩ := hnames e he hspread
      exact e.2.writtenKey?_text hspread hkey hname
        (fun explicitKey n hn => hsound.stands _ _ _ (hn ▸ he)) style conditions
    refine ⟨hwritten, sortByKey t.entries, sortByKey_perm _, t.text_eq style conditions, ?_⟩
    have hrows : ((sortByKey t.entries).map Prod.fst).Nodup :=
      ((sortByKey_perm _).map Prod.fst).nodup_iff.mpr hsound.keyed.keys
    have hkeys : (((sortByKey t.entries).filter fun e => !e.2.isSpread).map fun e =>
        writtenKey? (e.2.text style conditions e.1)) =
        (((sortByKey t.entries).filter fun e => !e.2.isSpread).map Prod.fst).map some := by
      rw [List.map_map]
      refine List.map_congr_left fun e he => ?_
      obtain ⟨hmem, hspread⟩ := List.mem_filter.mp he
      exact hwritten e (mem_sortByKey.mp hmem) (by simpa using hspread)
    rw [hkeys]
    exact (hrows.sublist (List.filter_sublist.map Prod.fst)).map (Option.some_injective String)

/-- A node without a type name, which takes the key that it is first selected under. -/
def unnamedNode : Node := (Node.new .query).select (.field "id")

/-- A node that is taken out of an operation and selected again under another key. -/
def reselectedOperation : Operation :=
  ((Operation.new .query "").select (.nodeAs "first" unnamedNode)).select
    (.nodeAs "again" (unnamedNode.attached (some "first")))

theorem built_reselectedOperation : (Item.operation reselectedOperation).Built := by
  have hnode : (Item.node unnamedNode).Built :=
    .select (x := .node (.new .query)) (.newNode .query) (s := .field "id") nofun
  have hfirst : (Item.operation ((Operation.new .query "").select
      (.nodeAs "first" unnamedNode))).Built :=
    .select (x := .operation (.new .query "")) (.newOperation .query "")
      fun m hm => by cases hm; exact hnode
  refine .select hfirst fun m hm => ?_
  cases hm
  have htaken : ("first", Entry.node true (unnamedNode.attached (some "first"))) ∈
      (Item.operation ((Operation.new .query "").select
        (.nodeAs "first" unnamedNode))).fields.entries := List.mem_cons_self
  exact hfirst.takeNode htaken

theorem responseKeys_reselectedOperation :
    SelectionSet.IsBuilt reselectedOperation.fields ∧
      SelectionSet.HasNames reselectedOperation.fields ∧
      (∀ e ∈ reselectedOperation.fields.entries, e.2.isSpread = false ∧
        writtenKey? (e.2.text .whenDistinct .empty e.1) = some e.1) ∧
      (unnamedNode.attached (some "first")).typeName ≠ "" ∧
      ((unnamedNode.attached (some "first")).attached (some "again")).typeName = "first" := by
  have hbuilt : SelectionSet.IsBuilt reselectedOperation.fields :=
    ⟨_, built_reselectedOperation, .inl .self⟩
  have hentries : reselectedOperation.fields.entries =
      [("first", .node true (unnamedNode.attached (some "first"))),
        ("again", .node true ((unnamedNode.attached (some "first")).attached (some "again")))] :=
    rfl
  have hnames : SelectionSet.HasNames reselectedOperation.fields := by
    intro e he _
    rw [hentries] at he
    simp only [List.mem_cons, List.not_mem_nil, or_false] at he
    rcases he with rfl | rfl
    · exact ⟨rfl, rfl⟩
    · exact ⟨rfl, rfl⟩
  have hspread : ∀ e ∈ reselectedOperation.fields.entries, e.2.isSpread = false := by
    rw [hentries]
    exact List.forall_mem_cons.mpr ⟨rfl, List.forall_mem_singleton.mpr rfl⟩
  have hnamed : (unnamedNode.attached (some "first")).typeName ≠ "" := by decide
  obtain ⟨-, hkeys, htype⟩ := SelectionSet.responseKeys_of_built hbuilt
  exact ⟨hbuilt, hnames,
    fun e he => ⟨hspread e he, (hkeys hnames .whenDistinct .empty).1 e he (hspread e he)⟩,
    hnamed, htype _ (some "again") hnamed⟩

end QueryDoc
