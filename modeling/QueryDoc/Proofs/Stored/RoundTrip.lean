import QueryDoc.Proofs.Binary64.Reading
import QueryDoc.Proofs.Stored.Structures
import QueryDoc.Proofs.Value

/-!
# QueryDoc.Proofs.Stored.RoundTrip

Stored nodes, fragments and operations are loaded as they were (`Stored.load_stored`): the same
flags, kinds and names, and the same entries in the same order in every map at every depth.

A stored tree is loaded if its arrays and objects do not nest too deep; otherwise it is refused.
Every number format will do whose texts read back (`NumberFormat.ReadsBack`), and the shortest
texts do.
-/

namespace QueryDoc

open Json (deepest)

/-! ## What can be stored -/

/-- Whether nothing is lost when a value is stored: a float is finite, and an object has each
key once. -/
def Value.IsStorable : Value → Prop
  | .float x => x.isFinite = true
  | .object fields => fields.HasDistinctKeys
  | _ => True

/-- Arguments with distinct names, of which nothing is lost. -/
structure ArgumentsStorable (arguments : List (String × Value)) : Prop where
  keys : (OrderedMap.mk arguments).HasDistinctKeys
  values : fieldsEverywhere Value.IsStorable arguments

mutual

/-- Whether every map in a node has each key once, and every float in it is finite. -/
def Node.IsStorable : Node → Prop
  | ⟨_, ⟨arguments⟩, conditions, ⟨entries⟩, fragments, _, _, _⟩ =>
    ArgumentsStorable arguments ∧
      (conditions.includeIf.HasDistinctKeys ∧ conditions.skipIf.HasDistinctKeys) ∧
      ((OrderedMap.mk entries).HasDistinctKeys ∧ entriesStorable entries) ∧
      fragmentsStorable fragments

/-- A field has nothing that could be lost. -/
def Entry.IsStorable : Entry → Prop
  | .field _ => True
  | .node _ n => n.IsStorable

/-- Whether nothing is lost when these entries are stored. -/
def entriesStorable : List (String × Entry) → Prop
  | [] => True
  | (_, e) :: rest => e.IsStorable ∧ entriesStorable rest

/-- Whether every map in a fragment has each key once, and every float in it is finite. -/
def Fragment.IsStorable : Fragment → Prop
  | ⟨_, _, ⟨entries⟩⟩ => (OrderedMap.mk entries).HasDistinctKeys ∧ entriesStorable entries

def fragmentsStorable : List Fragment → Prop
  | [] => True
  | f :: rest => f.IsStorable ∧ fragmentsStorable rest

end

/-- Whether every map in an operation has each key once, and every float in it is finite. -/
structure Operation.IsStorable (o : Operation) : Prop where
  keys : OrderedMap.HasDistinctKeys o.fields
  entries : entriesStorable o.fields.entries
  fragments : fragmentsStorable o.fragments
  variableTypes : o.variableTypes.HasDistinctKeys

namespace Stored

/-! ## Numbers -/

/-- What a number format has to give: texts that are numbers and read as what they were written
for, a float if it is finite. -/
structure NumberFormat.ReadsBack (numbers : NumberFormat) : Prop where
  isNumber_float : ∀ {x : Binary64}, x.isFinite = true → Json.IsNumber (numbers.float x)
  toFloat?_float : ∀ {x : Binary64}, x.isFinite = true →
    toFloat? (.number (numbers.float x)) = some x
  isNumber_int : ∀ n : Int64, Json.IsNumber (numbers.int n)
  toInt64?_int : ∀ n : Int64, toInt64? (.number (numbers.int n)) = some n

/-- Floats with the fewest digits that tell them apart, and whole numbers digit by digit. -/
def NumberFormat.shortest : NumberFormat := ⟨Binary64.shortText, fun n => Decimal.intText n.toInt⟩

/-- The shortest text of a finite float tells it apart from all others, also from its negative. -/
theorem toFloat?_shortText {x : Binary64} (h : x.isFinite = true) :
    toFloat? (.number x.shortText) = some x := by
  obtain ⟨d, hd, hx⟩ := Option.map_eq_some_iff.mp (Binary64.read?_shortText h)
  simp [toFloat?, h, hd, hx]

/-- The digits of a whole number are read as that number, with no minus sign in front of zero. -/
theorem toInt?_intText (n : Int) : toInt? (.number (Decimal.intText n)) = some n := by
  have hall := List.all_eq_true.mpr (isDigits_digits n.natAbs).2
  unfold toInt? Decimal.intText
  by_cases hn : n < 0
  · have hzero : Decimal.digits n.natAbs ≠ ['0'] := fun heq =>
      head_digits_ne_zero (n := n.natAbs) (by omega) (by rw [heq]; rfl)
    simp only [if_pos hn, hall, hzero, ne_eq, not_false_eq_true, and_self, if_true,
      Decimal.ofDigits_digits, Option.some.injEq]
    omega
  · obtain ⟨c, ds, hds, -, -, hminus⟩ := exists_head_digits n.natAbs
    rw [if_neg hn]
    split
    · next heq =>
      rw [hds] at heq
      exact absurd (List.cons.inj (Json.number.inj heq)).1 hminus
    · next heq =>
      obtain rfl := Json.number.inj heq
      rw [if_pos hall, Decimal.ofDigits_digits, Option.some.injEq]
      omega
    · next hnone => exact absurd rfl (hnone _)

/-- The digits of a whole number are a number: they have no leading zero. -/
theorem isNumber_intText (n : Int) : Json.IsNumber (Decimal.intText n) := by
  have hdigits := isDigits_digits n.natAbs
  have hnumeral : (Numeral.mk (decide (n < 0)) (Decimal.digits n.natAbs) [] none).WellFormed := by
    refine ⟨hdigits, List.forall_mem_nil _, ?_⟩
    obtain hzero | hpos := Nat.eq_zero_or_pos n.natAbs
    · exact .inl (congrArg Decimal.digits hzero)
    · exact .inr (head_digits_ne_zero hpos)
  convert Json.isNumber_text hnumeral using 1
  simp only [Decimal.intText, Numeral.text, Numeral.fractionText, Numeral.powerText,
    decide_eq_true_eq, if_true, List.append_nil]
  split <;> rfl

/-- The shortest texts read back. -/
theorem NumberFormat.readsBack_shortest : NumberFormat.shortest.ReadsBack where
  isNumber_float {x} _ := by
    have hnumeral := Json.isNumber_text x.wellFormed_shortNumeral
    rwa [x.text_shortNumeral] at hnumeral
  toFloat?_float := toFloat?_shortText
  isNumber_int n := isNumber_intText n.toInt
  toInt64?_int n := by
    rw [toInt64?, shortest, toInt?_intText, Option.bind_some,
      if_pos ⟨n.minValue_le_toInt, n.toInt_le⟩, Int64.ofInt_toInt]

section Format

variable {numbers : NumberFormat}

/-- A float takes no level, finite or not. -/
@[simp] theorem levels_ofFloat (x : Binary64) : (ofFloat numbers x).levels = 0 := by
  unfold ofFloat
  split <;> rfl

/-! ## Values -/

/-- Each item is stored by itself. -/
theorem ofItems_eq_map (vs : List Value) : ofItems numbers vs = vs.map (ofValue numbers) := by
  induction vs with
  | nil => rfl
  | cons v vs ih => rw [ofItems, ih, List.map_cons]

/-- Each field is stored by itself, under its key. -/
theorem ofFields_eq_map (fields : List (String × Value)) :
    ofFields numbers fields = fields.map fun f => (f.1, ofValue numbers f.2) := by
  induction fields with
  | nil => rfl
  | cons f fields ih => rw [ofFields, ih, List.map_cons]

theorem levels_ofValue_bool (b : Bool) : (ofValue numbers (.bool b)).levels = 1 := by
  rw [ofValue, levels_tagged, Json.levels_bool]

/-- The object with the name of the form and the list itself take a level each. -/
theorem levels_ofValue_list (items : List Value) :
    (ofValue numbers (.list items)).levels = Json.itemLevels (ofItems numbers items) + 2 := by
  rw [ofValue, levels_tagged, Json.levels_array]

/-- The fields of an object are loaded if their values are. -/
theorem toFields?_ofFields {fields : List (String × Value)}
    (hkeys : (OrderedMap.mk fields).HasDistinctKeys)
    (h : ∀ room, ∀ f ∈ fields, toValue? room (ofValue numbers f.2) =
      if (ofValue numbers f.2).levels ≤ room then some f.2 else none) (room : Nat) :
    toFields? room (.ofMembers (ofFields numbers fields)) =
      if deepest (ofFields numbers fields) + 1 ≤ room then some ⟨fields⟩ else none := by
  cases room with
  | zero => simp [toFields?]
  | succ room =>
    rw [ofFields_eq_map, Json.ofMembers, toFields?, map_ofList_entries? room hkeys (h room)]
    simp

/-- A finite float is stored as a number, and loaded from it. -/
theorem toFloat?_ofFloat (hnumbers : numbers.ReadsBack) {x : Binary64} (h : x.isFinite = true) :
    toFloat? (ofFloat numbers x) = some x := by
  rw [ofFloat, if_pos h]
  exact hnumbers.toFloat?_float h

mutual

/-- A value is loaded if there is room for its arrays and objects. -/
theorem toValue?_ofValue (hnumbers : numbers.ReadsBack) (v : Value)
    (h : v.Everywhere Value.IsStorable) (room : Nat) :
    toValue? room (ofValue numbers v) =
      if (ofValue numbers v).levels ≤ room then some v else none := by
  cases v with
  | null => cases room <;> simp [ofValue, toValue?, isUnit]
  | bool b =>
    rw [levels_ofValue_bool]
    cases room <;> simp [ofValue, toValue?, toBool?]
  | enum name => cases room <;> simp [ofValue, toValue?]
  | float x =>
    have hx : x.isFinite = true := h
    cases room <;> simp [ofValue, toValue?, toFloat?_ofFloat hnumbers hx]
  | int n =>
    have hlevels : (Json.number (numbers.int n)).levels = 0 := rfl
    cases room <;> simp [ofValue, toValue?, hnumbers.toInt64?_int, hlevels]
  | list items =>
    rw [levels_ofValue_list]
    -- The object around the list takes one level, the list another.
    rcases room with _ | _ | room
    · simp [ofValue, toValue?]
    · simp [ofValue, toValue?, toItems?]
    · have hitems := mapM_map room (toValue?_items hnumbers items h.2 room)
      simp [ofValue, toValue?, toItems?, ofItems_eq_map, hitems]
  | object fields =>
    obtain ⟨fields⟩ := fields
    have hfields := toFields?_ofFields h.1 (toValue?_fields hnumbers fields h.2)
    cases room <;> simp [ofValue, toValue?, hfields]
  | string s => cases room <;> simp [ofValue, toValue?]
  | reference v => cases room <;> simp [ofValue, toValue?, toReference?]

/-- Items are loaded one by one. -/
theorem toValue?_items (hnumbers : numbers.ReadsBack) (vs : List Value)
    (h : itemsEverywhere Value.IsStorable vs) :
    ∀ room, ∀ v ∈ vs, toValue? room (ofValue numbers v) =
      if (ofValue numbers v).levels ≤ room then some v else none := by
  cases vs with
  | nil => exact fun _ => List.forall_mem_nil _
  | cons v vs =>
    exact fun room => List.forall_mem_cons.mpr
      ⟨toValue?_ofValue hnumbers v h.1 room, toValue?_items hnumbers vs h.2 room⟩

theorem toValue?_fields (hnumbers : numbers.ReadsBack) (fields : List (String × Value))
    (h : fieldsEverywhere Value.IsStorable fields) :
    ∀ room, ∀ f ∈ fields, toValue? room (ofValue numbers f.2) =
      if (ofValue numbers f.2).levels ≤ room then some f.2 else none := by
  cases fields with
  | nil => exact fun _ => List.forall_mem_nil _
  | cons f fields =>
    exact fun room => List.forall_mem_cons.mpr
      ⟨toValue?_ofValue hnumbers f.2 h.1 room, toValue?_fields hnumbers fields h.2 room⟩

end

/-! ## Parts of nodes and fragments -/

/-- The structure around a map takes a level of its own. -/
@[simp] theorem levels_ofEntryMap (members : List (String × Json)) :
    (ofEntryMap members).levels = deepest members + 2 :=
  congrArg (· + 1) (Nat.max_zero _)

/-- Arguments stand in an object of their own, in the structure around it. -/
theorem toArguments?_ofEntryMap (hnumbers : numbers.ReadsBack)
    {arguments : List (String × Value)} (h : ArgumentsStorable arguments) (room : Nat) :
    toArguments? room (ofEntryMap (ofFields numbers arguments)) =
      if deepest (ofFields numbers arguments) + 2 ≤ room then some ⟨arguments⟩ else none := by
  cases room with
  | zero => simp [toArguments?]
  | succ room =>
    have hstructure := fields?_ofMembers
      [("entries", .ofMembers (ofFields numbers arguments))] (by simp)
    simp only [List.map_cons, List.map_nil] at hstructure
    simp [toArguments?, ofEntryMap, hstructure,
      toFields?_ofFields h.keys (toValue?_fields hnumbers arguments h.values)]

theorem ofFragments_eq_map (fs : List Fragment) :
    ofFragments numbers fs = fs.map (ofFragment numbers) := by
  induction fs with
  | nil => rfl
  | cons f fs ih => rw [ofFragments, ih, List.map_cons]

theorem ofEntries_eq_map (entries : List (String × Entry)) :
    ofEntries numbers entries = entries.map fun e => (e.1, ofEntry numbers e.2) := by
  induction entries with
  | nil => rfl
  | cons e entries ih => rw [ofEntries, ih, List.map_cons]

/-- Leaves take no level. -/
theorem deepest_map_of_levels {g : α → Json} (hg : ∀ a, (g a).levels = 0)
    (entries : List (String × α)) : deepest (entries.map fun e => (e.1, g e.2)) = 0 := by
  induction entries with
  | nil => rfl
  | cons e entries ih => simp [hg, ih]

/-- A map whose contents are leaves takes the level of its object. -/
theorem map?_ofMap {f : Json → Option α} {g : α → Json} {m : OrderedMap α} (hm : m.HasDistinctKeys)
    (h : ∀ a, f (g a) = some a) (hg : ∀ a, (g a).levels = 0) (room : Nat) :
    map? f room (ofMap g m) = if 1 ≤ room then some m else none := by
  obtain ⟨entries⟩ := m
  cases room with
  | zero => simp [map?]
  | succ room =>
    rw [ofMap, Json.ofMembers, map?,
      map_ofList_entries? room hm fun e _ => by simp [h, hg], deepest_map_of_levels hg]
    simp

theorem levels_ofMap {g : α → Json} (hg : ∀ a, (g a).levels = 0) (m : OrderedMap α) :
    (ofMap g m).levels = 1 := by
  rw [ofMap, Json.levels_ofMembers, deepest_map_of_levels hg]

/-- Each map of conditions is an object of texts. -/
@[simp] theorem levels_ofConditions (c : Conditions) : (ofConditions c).levels = 2 := by
  have hlevels (v : VariableRef) : (Json.ofString v.name).levels = 0 := rfl
  rw [ofConditions, Json.levels_ofMembers, Json.deepest_cons, Json.deepest_cons, Json.deepest_nil,
    levels_ofMap hlevels, levels_ofMap hlevels]
  rfl

/-- A variable is stored by its name. -/
theorem toReference?_ofString (v : VariableRef) : toReference? (.ofString v.name) = some v := by
  simp [toReference?]

/-- Conditions are loaded if there is room for their two maps. -/
theorem toConditions?_ofConditions {c : Conditions} (hinclude : c.includeIf.HasDistinctKeys)
    (hskip : c.skipIf.HasDistinctKeys) (room : Nat) :
    toConditions? room (ofConditions c) = if 2 ≤ room then some c else none := by
  cases room with
  | zero => simp [toConditions?]
  | succ room =>
    have hstructure := fields?_ofMembers
      [("include_if", ofMap (fun v => .ofString v.name) c.includeIf),
        ("skip_if", ofMap (fun v => .ofString v.name) c.skipIf)] (by simp)
    simp only [List.map_cons, List.map_nil] at hstructure
    have hlevels (v : VariableRef) : (Json.ofString v.name).levels = 0 := rfl
    simp [toConditions?, ofConditions, hstructure,
      map?_ofMap hinclude toReference?_ofString hlevels,
      map?_ofMap hskip toReference?_ofString hlevels]
    cases room <;> simp

/-- A kind is its name alone, and takes no room. -/
@[simp] theorem toKind?_ofKind (kind : OperationKind) (room : Nat) :
    toKind? room (ofKind kind) = some kind := by
  cases kind <;> simp [toKind?, ofKind, isUnit]

section

variable {entries : List (String × Entry)} (hkeys : (OrderedMap.mk entries).HasDistinctKeys)
  (h : ∀ room, ∀ e ∈ entries, toEntry? room (ofEntry numbers e.2) =
    if (ofEntry numbers e.2).levels ≤ room then some e.2 else none)

include hkeys h

/-- The entries of a selection set are loaded if each of them is. -/
theorem toEntries?_ofEntries (room : Nat) :
    toEntries? room (.ofMembers (ofEntries numbers entries)) =
      if deepest (ofEntries numbers entries) + 1 ≤ room then some ⟨entries⟩ else none := by
  cases room with
  | zero => simp [toEntries?]
  | succ room =>
    rw [ofEntries_eq_map, Json.ofMembers, toEntries?, map_ofList_entries? room hkeys (h room)]
    simp

/-- A selection set is loaded if its entries are. -/
theorem toSelectionSet?_ofEntryMap (room : Nat) :
    toSelectionSet? room (ofEntryMap (ofEntries numbers entries)) =
      if deepest (ofEntries numbers entries) + 2 ≤ room then some ⟨entries⟩ else none := by
  cases room with
  | zero => simp [toSelectionSet?]
  | succ room =>
    have hstructure := fields?_ofMembers
      [("entries", .ofMembers (ofEntries numbers entries))] (by simp)
    simp only [List.map_cons, List.map_nil] at hstructure
    simp [toSelectionSet?, ofEntryMap, hstructure, toEntries?_ofEntries hkeys h]

end

/-- Fragments are loaded if each of them is. -/
theorem toFragments?_array {fs : List Fragment}
    (h : ∀ room, ∀ f ∈ fs, toFragment? room (ofFragment numbers f) =
      if (ofFragment numbers f).levels ≤ room then some f else none) (room : Nat) :
    toFragments? room (.array (ofFragments numbers fs)) =
      if Json.itemLevels (ofFragments numbers fs) + 1 ≤ room then some fs else none := by
  cases room with
  | zero => simp [toFragments?]
  | succ room =>
    rw [ofFragments_eq_map, toFragments?, mapM_map room (h room)]
    simp

/-- No string is read as null. -/
@[simp] theorem toOptionalString?_ofOptionalString (s : Option String) :
    toOptionalString? (ofOptionalString s) = some s := by
  cases s <;>
    simp [ofOptionalString, toOptionalString?, Json.ofString, toString?,
      Json.decodeString?_encodeString]

@[simp] theorem levels_ofOptionalString (s : Option String) : (ofOptionalString s).levels = 0 := by
  cases s <;> rfl

@[simp] theorem levels_ofKind (kind : OperationKind) : (ofKind kind).levels = 0 := by
  cases kind <;> rfl

/-! ## Levels of structures -/

/-- The members that a node is stored with. -/
def nodeMembers (numbers : NumberFormat) (n : Node) : List (String × Json) :=
  [("arguments", ofEntryMap (ofFields numbers n.arguments.entries)),
    ("directives", ofConditions n.conditions),
    ("fields", ofEntryMap (ofEntries numbers n.fields.entries)),
    ("fragments", .array (ofFragments numbers n.fragments)),
    ("is_operation", .bool n.isOperation),
    ("kind", ofKind n.kind),
    ("operation_name", ofOptionalString n.operationName),
    ("type_name", .ofString n.typeName)]

/-- A node is stored with these members, whatever it holds. -/
theorem ofNode_eq (n : Node) : ofNode numbers n = .ofMembers (nodeMembers numbers n) := by
  cases n
  rfl

/-- The deepest part of a node: an argument, a field or a fragment, or else its conditions. -/
theorem levels_ofNode (n : Node) : (ofNode numbers n).levels =
    max (deepest (ofFields numbers n.arguments.entries) + 2)
      (max (deepest (ofEntries numbers n.fields.entries) + 2)
        (Json.itemLevels (ofFragments numbers n.fragments) + 1)) + 1 := by
  rw [ofNode_eq, Json.levels_ofMembers, nodeMembers]
  simp only [Json.deepest_cons, Json.deepest_nil, levels_ofEntryMap, levels_ofConditions,
    Json.levels_array, Json.levels_bool, levels_ofKind, levels_ofOptionalString,
    Json.levels_ofString]
  omega

/-- The object with the name of the form and the structure in it take a level each. -/
theorem levels_ofEntry_node (explicitKey : Bool) (n : Node) :
    (ofEntry numbers (.node explicitKey n)).levels = (ofNode numbers n).levels + 2 := by
  rw [ofEntry, levels_tagged, Json.levels_ofMembers]
  simp only [Json.deepest_cons, Json.deepest_nil, Json.levels_bool]
  omega

/-- A fragment is as deep as its selection set. -/
theorem levels_ofFragment (f : Fragment) :
    (ofFragment numbers f).levels = deepest (ofEntries numbers f.fields.entries) + 3 := by
  obtain ⟨name, onType, ⟨entries⟩⟩ := f
  rw [ofFragment, Json.levels_ofMembers]
  simp only [Json.deepest_cons, Json.deepest_nil, levels_ofEntryMap, Json.levels_ofString]
  omega

/-- The deepest part of an operation is a field or a fragment: the variables take one level only. -/
theorem levels_ofOperation (o : Operation) : (ofOperation numbers o).levels =
    max (deepest (ofEntries numbers o.fields.entries) + 2)
      (Json.itemLevels (ofFragments numbers o.fragments) + 1) + 1 := by
  rw [ofOperation, Json.levels_ofMembers]
  simp only [Json.deepest_cons, Json.deepest_nil, levels_ofEntryMap, Json.levels_array,
    levels_ofKind, Json.levels_ofString, levels_ofMap Json.levels_ofString]
  omega

/-! ## Nodes, fragments and operations -/

mutual

/-- A node is loaded if there is room for its arrays and objects. -/
theorem toNode?_ofNode (hnumbers : numbers.ReadsBack) (n : Node) (h : n.IsStorable) (room : Nat) :
    toNode? room (ofNode numbers n) =
      if (ofNode numbers n).levels ≤ room then some n else none := by
  have hstructure := fields?_ofMembers (nodeMembers numbers n) (by simp [nodeMembers])
  rw [levels_ofNode]
  obtain ⟨typeName, ⟨arguments⟩, conditions, ⟨entries⟩, fragments, isOperation, kind,
    operationName⟩ := n
  obtain ⟨harguments, ⟨hinclude, hskip⟩, ⟨hkeys, hentries⟩, hfragments⟩ := h
  have hentries := toEntry?_ofEntries hnumbers entries hentries
  have hfragments := toFragment?_ofFragments hnumbers fragments hfragments
  rw [ofNode_eq]
  cases room with
  | zero => simp [toNode?]
  | succ room =>
    simp only [nodeMembers, List.map_cons, List.map_nil] at hstructure
    simp [toNode?, toBool?, nodeMembers, hstructure, toArguments?_ofEntryMap hnumbers harguments,
      toConditions?_ofConditions hinclude hskip, toSelectionSet?_ofEntryMap hkeys hentries,
      toFragments?_array hfragments, bind_ite, ite_and]
    -- Where there is room for arguments, there is room for conditions.
    split_ifs <;> first | rfl | omega

/-- What stands under a key is loaded if there is room for its arrays and objects. -/
theorem toEntry?_ofEntry (hnumbers : numbers.ReadsBack) (e : Entry) (h : e.IsStorable)
    (room : Nat) :
    toEntry? room (ofEntry numbers e) =
      if (ofEntry numbers e).levels ≤ room then some e else none := by
  cases e with
  | field name => cases room <;> simp [ofEntry, toEntry?]
  | node explicitKey n =>
    have hn := toNode?_ofNode hnumbers n h
    rw [levels_ofEntry_node]
    -- The form's object takes one level, the structure in it another.
    rcases room with _ | _ | room
    · exact (if_neg (Nat.not_succ_le_zero _)).symm
    · simp [ofEntry, toEntry?, toNodeEntry?]
    · have hstructure := fields?_ofMembers
        [("explicit_alias", .bool explicitKey), ("node", ofNode numbers n)] (by simp)
      simp only [List.map_cons, List.map_nil] at hstructure
      simp [ofEntry, toEntry?, toNodeEntry?, toBool?, hstructure, hn, bind_ite]

theorem toEntry?_ofEntries (hnumbers : numbers.ReadsBack) (entries : List (String × Entry))
    (h : entriesStorable entries) :
    ∀ room, ∀ e ∈ entries, toEntry? room (ofEntry numbers e.2) =
      if (ofEntry numbers e.2).levels ≤ room then some e.2 else none := by
  cases entries with
  | nil => exact fun _ => List.forall_mem_nil _
  | cons e entries =>
    exact fun room => List.forall_mem_cons.mpr
      ⟨toEntry?_ofEntry hnumbers e.2 h.1 room, toEntry?_ofEntries hnumbers entries h.2 room⟩

/-- A fragment is loaded if there is room for its arrays and objects. -/
theorem toFragment?_ofFragment (hnumbers : numbers.ReadsBack) (f : Fragment) (h : f.IsStorable)
    (room : Nat) :
    toFragment? room (ofFragment numbers f) =
      if (ofFragment numbers f).levels ≤ room then some f else none := by
  rw [levels_ofFragment]
  obtain ⟨name, onType, ⟨entries⟩⟩ := f
  obtain ⟨hkeys, hentries⟩ := h
  have hentries := toEntry?_ofEntries hnumbers entries hentries
  cases room with
  | zero => simp [toFragment?]
  | succ room =>
    have hstructure := fields?_ofMembers [("fields", ofEntryMap (ofEntries numbers entries)),
      ("name", .ofString name), ("on_type", .ofString onType)] (by simp)
    simp only [List.map_cons, List.map_nil] at hstructure
    simp [toFragment?, ofFragment, hstructure, toSelectionSet?_ofEntryMap hkeys hentries, bind_ite]

theorem toFragment?_ofFragments (hnumbers : numbers.ReadsBack) (fs : List Fragment)
    (h : fragmentsStorable fs) :
    ∀ room, ∀ f ∈ fs, toFragment? room (ofFragment numbers f) =
      if (ofFragment numbers f).levels ≤ room then some f else none := by
  cases fs with
  | nil => exact fun _ => List.forall_mem_nil _
  | cons f fs =>
    exact fun room => List.forall_mem_cons.mpr
      ⟨toFragment?_ofFragment hnumbers f h.1 room, toFragment?_ofFragments hnumbers fs h.2 room⟩

end

/-- An operation is loaded if there is room for its arrays and objects. -/
theorem toOperation?_ofOperation (hnumbers : numbers.ReadsBack) {o : Operation} (h : o.IsStorable)
    (room : Nat) :
    toOperation? room (ofOperation numbers o) =
      if (ofOperation numbers o).levels ≤ room then some o else none := by
  have hstructure := fields?_ofMembers
    [("fields", ofEntryMap (ofEntries numbers o.fields.entries)),
      ("fragments", .array (ofFragments numbers o.fragments)), ("kind", ofKind o.kind),
      ("name", .ofString o.name), ("variables", ofMap .ofString o.variableTypes)] (by simp)
  have hentries := toEntry?_ofEntries hnumbers o.fields.entries h.entries
  have hfragments := toFragment?_ofFragments hnumbers o.fragments h.fragments
  have htypes := map?_ofMap h.variableTypes toString?_ofString Json.levels_ofString
  rw [levels_ofOperation]
  cases room with
  | zero => simp [toOperation?]
  | succ room =>
    simp only [List.map_cons, List.map_nil] at hstructure
    simp [toOperation?, ofOperation, hstructure, toSelectionSet?_ofEntryMap h.keys hentries,
      toFragments?_array hfragments, htypes, bind_ite, ite_and]
    -- Where there is room for fields, there is room for variables.
    split_ifs <;> first | rfl | omega

/-! ## Texts of stored trees -/

/-- A form can be read as JSON if its content can. -/
theorem isWritten_tagged (name : String) {content : Json} (h : content.IsWritten) :
    (tagged name content).IsWritten :=
  Json.isWritten_ofMembers (List.forall_mem_singleton.mpr h)

theorem isWritten_ofEntryMap {members : List (String × Json)} (h : ∀ m ∈ members, m.2.IsWritten) :
    (ofEntryMap members).IsWritten :=
  Json.isWritten_ofMembers (List.forall_mem_singleton.mpr (Json.isWritten_ofMembers h))

theorem isWritten_ofMap {g : α → Json} (hg : ∀ a, (g a).IsWritten) (m : OrderedMap α) :
    (ofMap g m).IsWritten :=
  Json.isWritten_ofMembers (List.forall_mem_map.mpr fun e _ => hg e.2)

/-- Conditions hold names only. -/
theorem isWritten_ofConditions (c : Conditions) : (ofConditions c).IsWritten := by
  have hmap := isWritten_ofMap (g := fun v : VariableRef => .ofString v.name)
    fun v => Json.isWritten_ofString v.name
  exact Json.isWritten_ofMembers (List.forall_mem_cons.mpr ⟨hmap c.includeIf,
    List.forall_mem_singleton.mpr (hmap c.skipIf)⟩)

theorem isWritten_ofKind (kind : OperationKind) : (ofKind kind).IsWritten := by
  cases kind <;> exact Json.isWritten_ofString _

theorem isWritten_ofOptionalString (s : Option String) : (ofOptionalString s).IsWritten := by
  cases s with
  | none => trivial
  | some s => exact Json.isWritten_ofString s

/-- The text of a finite float is a number, and every other float is null. -/
theorem isWritten_ofFloat (hnumbers : numbers.ReadsBack) (x : Binary64) :
    (ofFloat numbers x).IsWritten := by
  unfold ofFloat
  split_ifs with hx
  · exact hnumbers.isNumber_float hx
  · trivial

mutual

/-- The text of a stored value can be read as JSON. -/
theorem isWritten_ofValue (hnumbers : numbers.ReadsBack) (v : Value) :
    (ofValue numbers v).IsWritten := by
  cases v with
  | null => exact Json.isWritten_ofString _
  | bool b => exact isWritten_tagged _ trivial
  | enum name => exact isWritten_tagged _ (Json.isWritten_ofString name)
  | float x => exact isWritten_tagged _ (isWritten_ofFloat hnumbers x)
  | int n => exact isWritten_tagged _ (hnumbers.isNumber_int n)
  | list items => exact isWritten_tagged _ (Json.isWritten_array (isWritten_ofItems hnumbers items))
  | object fields =>
    exact isWritten_tagged _ (Json.isWritten_ofMembers (isWritten_ofFields hnumbers fields.entries))
  | string s => exact isWritten_tagged _ (Json.isWritten_ofString s)
  | reference v => exact isWritten_tagged _ (Json.isWritten_ofString v.name)

theorem isWritten_ofItems (hnumbers : numbers.ReadsBack) (vs : List Value) :
    ∀ j ∈ ofItems numbers vs, j.IsWritten := by
  cases vs with
  | nil => exact List.forall_mem_nil _
  | cons v vs =>
    exact List.forall_mem_cons.mpr
      ⟨isWritten_ofValue hnumbers v, isWritten_ofItems hnumbers vs⟩

theorem isWritten_ofFields (hnumbers : numbers.ReadsBack) (fields : List (String × Value)) :
    ∀ m ∈ ofFields numbers fields, m.2.IsWritten := by
  cases fields with
  | nil => exact List.forall_mem_nil _
  | cons f fields =>
    exact List.forall_mem_cons.mpr
      ⟨isWritten_ofValue hnumbers f.2, isWritten_ofFields hnumbers fields⟩

end

mutual

/-- The text of a stored node can be read as JSON. -/
theorem isWritten_ofNode (hnumbers : numbers.ReadsBack) (n : Node) :
    (ofNode numbers n).IsWritten := by
  rw [ofNode_eq]
  obtain ⟨typeName, arguments, conditions, ⟨entries⟩, fragments, isOperation, kind,
    operationName⟩ := n
  refine Json.isWritten_ofMembers ?_
  simp only [nodeMembers, List.forall_mem_cons]
  exact ⟨isWritten_ofEntryMap (isWritten_ofFields hnumbers _), isWritten_ofConditions _,
    isWritten_ofEntryMap (isWritten_ofEntries hnumbers entries),
    Json.isWritten_array (isWritten_ofFragments hnumbers fragments), trivial, isWritten_ofKind _,
    isWritten_ofOptionalString _, Json.isWritten_ofString _, List.forall_mem_nil _⟩

theorem isWritten_ofEntry (hnumbers : numbers.ReadsBack) (e : Entry) :
    (ofEntry numbers e).IsWritten := by
  cases e with
  | field name => exact isWritten_tagged _ (Json.isWritten_ofString name)
  | node explicitKey n =>
    exact isWritten_tagged _ (Json.isWritten_ofMembers (List.forall_mem_cons.mpr
      ⟨trivial, List.forall_mem_singleton.mpr (isWritten_ofNode hnumbers n)⟩))

theorem isWritten_ofEntries (hnumbers : numbers.ReadsBack) (entries : List (String × Entry)) :
    ∀ m ∈ ofEntries numbers entries, m.2.IsWritten := by
  cases entries with
  | nil => exact List.forall_mem_nil _
  | cons e entries =>
    exact List.forall_mem_cons.mpr
      ⟨isWritten_ofEntry hnumbers e.2, isWritten_ofEntries hnumbers entries⟩

/-- The text of a stored fragment can be read as JSON. -/
theorem isWritten_ofFragment (hnumbers : numbers.ReadsBack) (f : Fragment) :
    (ofFragment numbers f).IsWritten := by
  obtain ⟨name, onType, ⟨entries⟩⟩ := f
  exact Json.isWritten_ofMembers (List.forall_mem_cons.mpr
    ⟨isWritten_ofEntryMap (isWritten_ofEntries hnumbers entries), List.forall_mem_cons.mpr
      ⟨Json.isWritten_ofString name,
        List.forall_mem_singleton.mpr (Json.isWritten_ofString onType)⟩⟩)

theorem isWritten_ofFragments (hnumbers : numbers.ReadsBack) (fs : List Fragment) :
    ∀ j ∈ ofFragments numbers fs, j.IsWritten := by
  cases fs with
  | nil => exact List.forall_mem_nil _
  | cons f fs =>
    exact List.forall_mem_cons.mpr
      ⟨isWritten_ofFragment hnumbers f, isWritten_ofFragments hnumbers fs⟩

end

/-- The text of a stored operation can be read as JSON. -/
theorem isWritten_ofOperation (hnumbers : numbers.ReadsBack) (o : Operation) :
    (ofOperation numbers o).IsWritten := by
  refine Json.isWritten_ofMembers ?_
  simp only [List.forall_mem_cons]
  exact ⟨isWritten_ofEntryMap (isWritten_ofEntries hnumbers _),
    Json.isWritten_array (isWritten_ofFragments hnumbers _), isWritten_ofKind _,
    Json.isWritten_ofString _, isWritten_ofMap Json.isWritten_ofString _, List.forall_mem_nil _⟩

/-! ## Loading -/

/-- Loads a node from a text. -/
def loadNode? (text : List Char) : Option Node := (Json.read? text).bind (toNode? maxLevels)

/-- Loads a fragment from a text. -/
def loadFragment? (text : List Char) : Option Fragment :=
  (Json.read? text).bind (toFragment? maxLevels)

/-- Loads an operation from a text. -/
def loadOperation? (text : List Char) : Option Operation :=
  (Json.read? text).bind (toOperation? maxLevels)

/-- A stored node is loaded as it was, or refused if it nests too deep. -/
theorem loadNode?_text (hnumbers : numbers.ReadsBack) {n : Node} (h : n.IsStorable) :
    loadNode? (ofNode numbers n).text =
      if (ofNode numbers n).levels ≤ maxLevels then some n else none := by
  rw [loadNode?, Json.read?_text (isWritten_ofNode hnumbers n), Option.bind_some,
    toNode?_ofNode hnumbers n h]

/-- **Storing and loading**: the text that a node, a fragment or an operation is stored as is
loaded as the same item, if its arrays and objects do not nest deeper than `maxLevels`, and is
refused otherwise. -/
theorem load_stored (hnumbers : numbers.ReadsBack) :
    (∀ n : Node, n.IsStorable →
      loadNode? (ofNode numbers n).text =
        if (ofNode numbers n).levels ≤ maxLevels then some n else none) ∧
    (∀ f : Fragment, f.IsStorable →
      loadFragment? (ofFragment numbers f).text =
        if (ofFragment numbers f).levels ≤ maxLevels then some f else none) ∧
    ∀ o : Operation, o.IsStorable →
      loadOperation? (ofOperation numbers o).text =
        if (ofOperation numbers o).levels ≤ maxLevels then some o else none := by
  refine ⟨fun n hn => loadNode?_text hnumbers hn, fun f hf => ?_, fun o ho => ?_⟩
  · rw [loadFragment?, Json.read?_text (isWritten_ofFragment hnumbers f), Option.bind_some,
      toFragment?_ofFragment hnumbers f hf]
  · rw [loadOperation?, Json.read?_text (isWritten_ofOperation hnumbers o), Option.bind_some,
      toOperation?_ofOperation hnumbers ho]

end Format

/-- A fragment with names that are no names of documents. -/
def oddFragment : Fragment where
  name := ""
  onType := "On \"Type\""
  fields := ⟨[("$z", .field "$z"), ("a", .field "...b")]⟩

/-- A node with values of all depths, and with keys in no order. -/
def oddNode : Node where
  typeName := "$n"
  arguments := ⟨[("$b", .object ⟨[("y", .float ⟨0x8000000000000000⟩), ("x", .list [.int (-1)])]⟩),
    ("a", .reference ⟨"$v"⟩)]⟩
  conditions := ⟨⟨[("k", ⟨"$v"⟩)]⟩, .empty⟩
  fields := ⟨[("k", .node true { Node.new .query with isOperation := false }), ("j", .field "j")]⟩
  fragments := [oddFragment]
  isOperation := true
  kind := .mutation
  operationName := some "tab\tand \u0001"

/-- An operation with this node and this fragment. -/
def oddOperation : Operation where
  fields := ⟨[("m", .node false oddNode), ("$l", .field "l")]⟩
  fragments := [oddFragment]
  kind := .query
  name := "😀"
  variableTypes := ⟨[("$b", "[Int]"), ("a", "")]⟩

theorem isStorable_oddFragment : oddFragment.IsStorable :=
  ⟨show ["$z", "a"].Nodup by decide, trivial, trivial, trivial⟩

theorem isStorable_oddNode : oddNode.IsStorable := by
  have hobject : ["y", "x"].Nodup := by decide
  have harguments : ArgumentsStorable oddNode.arguments.entries :=
    ⟨show ["$b", "a"].Nodup by decide, ⟨hobject, rfl, ⟨trivial, trivial, trivial⟩, trivial⟩,
      trivial, trivial⟩
  have hplain : (Node.new .query).IsStorable :=
    ⟨⟨List.nodup_nil, trivial⟩, ⟨List.nodup_nil, List.nodup_nil⟩, ⟨List.nodup_nil, trivial⟩,
      trivial⟩
  exact ⟨harguments, ⟨List.nodup_singleton "k", List.nodup_nil⟩,
    ⟨show ["k", "j"].Nodup by decide, hplain, trivial, trivial⟩, isStorable_oddFragment, trivial⟩

theorem isStorable_oddOperation : oddOperation.IsStorable where
  keys := show ["m", "$l"].Nodup by decide
  entries := ⟨isStorable_oddNode, trivial, trivial⟩
  fragments := ⟨isStorable_oddFragment, trivial⟩
  variableTypes := show ["$b", "a"].Nodup by decide

theorem load_oddOperation :
    NumberFormat.shortest.ReadsBack ∧
    (oddNode.IsStorable ∧ loadNode? (ofNode .shortest oddNode).text = some oddNode) ∧
    (oddFragment.IsStorable ∧
      loadFragment? (ofFragment .shortest oddFragment).text = some oddFragment) ∧
    oddOperation.IsStorable ∧
      loadOperation? (ofOperation .shortest oddOperation).text = some oddOperation := by
  obtain ⟨hnode, hfragment, hoperation⟩ := load_stored NumberFormat.readsBack_shortest
  refine ⟨NumberFormat.readsBack_shortest, ⟨isStorable_oddNode, ?_⟩,
    ⟨isStorable_oddFragment, ?_⟩, isStorable_oddOperation, ?_⟩
  · rw [hnode oddNode isStorable_oddNode, if_pos (by decide)]
  · rw [hfragment oddFragment isStorable_oddFragment, if_pos (by decide)]
  · rw [hoperation oddOperation isStorable_oddOperation, if_pos (by decide)]

/-- A node below this many others. -/
def nestedNode : Nat → Node
  | 0 => { (Node.new .query).withTypeName "n" with isOperation := false }
  | k + 1 =>
    { (Node.new .query).withTypeName "n" with
      isOperation := false
      fields := ⟨[("n", .node false (nestedNode k))]⟩ }

/-- Nothing in nested nodes could be lost. -/
theorem isStorable_nestedNode (k : Nat) : (nestedNode k).IsStorable := by
  have harguments : ArgumentsStorable [] := ⟨List.nodup_nil, trivial⟩
  induction k with
  | zero => exact ⟨harguments, ⟨List.nodup_nil, List.nodup_nil⟩, ⟨List.nodup_nil, trivial⟩, trivial⟩
  | succ k ih =>
    exact ⟨harguments, ⟨List.nodup_nil, List.nodup_nil⟩,
      ⟨List.nodup_singleton "n", ih, trivial⟩, trivial⟩

/-- Each node around another is stored in five objects. -/
theorem levels_nestedNode (numbers : NumberFormat) (k : Nat) :
    (ofNode numbers (nestedNode k)).levels = 5 * k + 3 := by
  induction k with
  | zero => rfl
  | succ k ih =>
    have hdeepest : deepest [("n", ofEntry numbers (.node false (nestedNode k)))] = 5 * k + 5 := by
      rw [Json.deepest_cons, Json.deepest_nil, levels_ofEntry_node, ih]
      rfl
    rw [levels_ofNode]
    simp only [nestedNode, Node.withTypeName, Node.new, OrderedMap.empty, ofEntries, ofFields,
      ofFragments, hdeepest, Json.deepest_nil, Json.itemLevels]
    omega

/-- Forty nodes in each other are stored, and are not loaded again. -/
theorem loadNode?_nestedNode : (nestedNode 39).IsStorable ∧
    loadNode? (ofNode .shortest (nestedNode 39)).text ≠ some (nestedNode 39) := by
  have hload := loadNode?_text NumberFormat.readsBack_shortest (isStorable_nestedNode 39)
  rw [levels_nestedNode, if_neg (by decide)] at hload
  refine ⟨isStorable_nestedNode 39, ?_⟩
  rw [hload]
  exact nofun

end Stored

end QueryDoc
