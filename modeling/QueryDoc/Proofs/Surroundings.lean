import QueryDoc.Proofs.Context
import QueryDoc.Proofs.Reordering

/-!
# QueryDoc.Proofs.Surroundings

The text around a node. An item consists of its own text and of the texts of the fragments
attached in it (`Item.texts`), and an operation is written as those of them that come first under
their names (`Item.text_operation`).

What a node is changed to shows in one of these texts only, and there between the same texts in
front and behind (`Item.Context.showsOnce`). Changes of its conditions are the ones that matter
here: the type name of a node, and the fragments attached to it, are seen elsewhere too.
-/

namespace QueryDoc

/-! ## Parts that vary -/

/-- Whether texts differ in these parts of them only, which stand at one place in all of them. -/
def VaryOnlyIn (part text : ι → String) : Prop :=
  ∃ front back, ∀ i, text i = front ++ part i ++ back

theorem VaryOnlyIn.trans {part text whole : ι → String} (h : VaryOnlyIn part text)
    (hwhole : VaryOnlyIn text whole) : VaryOnlyIn part whole := by
  obtain ⟨front, back, h⟩ := h
  obtain ⟨front', back', hwhole⟩ := hwhole
  refine ⟨front' ++ front, back ++ back', fun i => ?_⟩
  rw [hwhole, h]
  simp only [String.append_assoc]

theorem exists_intercalate_eq (separator : String) (before behind : List String) :
    ∃ front back, ∀ s, separator.intercalate (before ++ s :: behind) = front ++ s ++ back := by
  induction before with
  | nil =>
    cases behind with
    | nil => exact ⟨"", "", fun s => by simp⟩
    | cons t ts =>
      refine ⟨"", separator ++ separator.intercalate (t :: ts), fun s => ?_⟩
      rw [List.nil_append, String.intercalate_cons_cons]
      simp only [String.empty_append, String.append_assoc]
  | cons t ts ih =>
    obtain ⟨front, back, ih⟩ := ih
    refine ⟨t ++ separator ++ front, back, fun s => ?_⟩
    rw [List.cons_append, String.intercalate_cons_of_ne_nil
      (List.append_ne_nil_of_right_ne_nil _ (List.cons_ne_nil _ _)), ih]
    simp only [String.append_assoc]

theorem intercalate_cons_eq_join (separator s : String) (ts : List String) :
    separator.intercalate (s :: ts) = s ++ String.join (ts.map fun t => separator ++ t) := by
  induction ts generalizing s with
  | nil => simp [String.join]
  | cons t ts ih =>
    rw [String.intercalate_cons_cons, ih]
    simp [String.append_assoc]

/-! ## Parts of a node's text -/

namespace Node

/-- The type name and the arguments of a node, as they are written. -/
def headText (n : Node) : String :=
  n.typeName ++ if n.arguments.isEmpty then "" else " " ++ argumentsText n.arguments

/-- The fields of a node in braces; nothing if there are none. -/
def fieldsText (n : Node) : String :=
  if n.fields.isEmpty then ""
  else " \x7b " ++ SelectionSet.text .always n.conditions n.fields ++ " \x7d"

theorem textWith_eq (n : Node) (directive : Option String) :
    n.textWith directive = n.headText ++ spaced directive ++ n.fieldsText := by
  obtain ⟨typeName, arguments, conditions, ⟨entries⟩, _, _, _, _⟩ := n
  rw [textWith]
  rfl

theorem fieldsText_of_ne_nil {n : Node} (h : n.fields.entries ≠ []) :
    n.fieldsText = " \x7b " ++ SelectionSet.text .always n.conditions n.fields ++ " \x7d" := by
  rw [fieldsText, OrderedMap.isEmpty, if_neg fun hempty => h (List.isEmpty_iff.mp hempty)]

/-- The node under other conditions. -/
def withConditions (n : Node) (c : Conditions) : Node := { n with conditions := c }

theorem nestedFragments_withConditions (n : Node) (c : Conditions) :
    (n.withConditions c).nestedFragments = n.nestedFragments := by
  rw [nestedFragments_eq, nestedFragments_eq]
  rfl

end Node

/-! ## The texts of an item -/

/-- The definition of a fragment up to its fields. -/
def Fragment.headText (f : Fragment) : String :=
  "fragment " ++ f.name ++ " on " ++ f.onType ++ " \x7b "

/-- The definition of a fragment, under its name. -/
def Fragment.definition (f : Fragment) : Option String × String := (some f.name, f.text)

/-- The text of a selection set, and under their names the definitions of the fragments attached
anywhere in it. -/
def SelectionSet.texts (style : KeyStyle) (conditions : Conditions) (s : SelectionSet) :
    List (Option String × String) :=
  (none, s.text style conditions) :: s.nestedFragments.map Fragment.definition

/-- The text of an item itself, and under their names the definitions of the fragments attached
anywhere in it, in the order in which an operation is searched for them. -/
def Item.texts : Item → List (Option String × String)
  | node n => (none, n.text) :: n.nestedFragments.map Fragment.definition
  | fragment f => (none, f.text) :: f.nestedFragments.map Fragment.definition
  | operation o =>
    (none, o.bodyText) :: (o.fragments ++ o.nestedFragments).map Fragment.definition

/-- The first text under each name. -/
def firstTexts : List (Option String × String) → List (Option String × String)
  | [] => []
  | t :: ts => t :: (firstTexts ts).filter fun u => u.1 ≠ t.1

theorem map_definition_firstOfEachName (fs : List Fragment) :
    (firstOfEachName fs).map Fragment.definition = firstTexts (fs.map Fragment.definition) := by
  induction fs with
  | nil => rfl
  | cons f fs ih =>
    rw [firstOfEachName, List.map_cons, List.map_cons, firstTexts, ← ih, List.filter_map]
    simp [Function.comp_def, Fragment.definition]

/-- An operation is written as its own text and the first definition of each name. -/
theorem Item.text_operation (o : Operation) :
    (operation o).text = "\n\n".intercalate ((firstTexts (operation o).texts).map Prod.snd) := by
  have hown : ∀ t ∈ firstTexts ((o.fragments ++ o.nestedFragments).map Fragment.definition),
      decide (t.1 ≠ none) = true := by
    rw [← map_definition_firstOfEachName]
    exact List.forall_mem_map.mpr fun f _ => rfl
  rw [texts, firstTexts, List.filter_eq_self.mpr hown, ← map_definition_firstOfEachName,
    ← Operation.definedFragments_eq, List.map_cons, intercalate_cons_eq_join, List.map_map,
    List.map_map]
  rfl

/-- Of a name that stands in front already no text is kept, and else the text stands where it
stood, whatever it is. -/
theorem exists_firstTexts_eq (earlier later : List (Option String × String))
    (name : Option String) :
    (name ∈ earlier.map Prod.fst →
      ∃ kept, ∀ s, firstTexts (earlier ++ (name, s) :: later) = kept) ∧
    (name ∉ earlier.map Prod.fst →
      ∃ front back, ∀ s, firstTexts (earlier ++ (name, s) :: later) = front ++ (name, s) :: back)
    := by
  induction earlier with
  | nil =>
    exact ⟨fun hmem => absurd hmem List.not_mem_nil,
      fun _ => ⟨[], (firstTexts later).filter fun u => u.1 ≠ name, fun _ => rfl⟩⟩
  | cons t ts ih =>
    rw [List.map_cons, List.mem_cons]
    refine ⟨fun hmem => ?_, fun hnot => ?_⟩
    · by_cases hts : name ∈ ts.map Prod.fst
      · obtain ⟨kept, hkept⟩ := ih.1 hts
        refine ⟨t :: kept.filter fun u => u.1 ≠ t.1, fun s => ?_⟩
        rw [List.cons_append, firstTexts, hkept]
      · obtain ⟨front, back, hsplit⟩ := ih.2 hts
        have hname : name = t.1 := hmem.resolve_right hts
        refine ⟨t :: (front.filter (fun u => u.1 ≠ t.1) ++ back.filter fun u => u.1 ≠ t.1),
          fun s => ?_⟩
        rw [List.cons_append, firstTexts, hsplit, List.filter_append,
          List.filter_cons_of_neg (by simpa using hname)]
    · obtain ⟨hname, hts⟩ := not_or.mp hnot
      obtain ⟨front, back, hsplit⟩ := ih.2 hts
      refine ⟨t :: front.filter (fun u => u.1 ≠ t.1), back.filter fun u => u.1 ≠ t.1, fun s => ?_⟩
      rw [List.cons_append, firstTexts, hsplit, List.filter_append,
        List.filter_cons_of_pos (by simpa using hname), List.cons_append]

/-! ## Around a node in an item -/

/-- Whether one of these texts shows the node under the conditions that the texts are taken for,
at one place, and nothing else in them depends on the conditions. -/
def Node.ShowsOnce (n : Node) (texts : Conditions → List (Option String × String)) : Prop :=
  ∃ earlier name later text directive, (∀ c, texts c = earlier ++ (name, text c) :: later) ∧
    VaryOnlyIn (fun c => (n.withConditions c).textWith directive) text

/-- What is put around the first text and around the others shows no more. -/
theorem Node.ShowsOnce.extend {n : Node} {name : Option String} {text : Conditions → String}
    {texts whole : Conditions → List (Option String × String)}
    (h : n.ShowsOnce fun c => (name, text c) :: texts c) (name' : Option String)
    (front back : String) (before between behind : List (Option String × String))
    (hwhole : ∀ c, whole c =
      before ++ (name', front ++ text c ++ back) :: (between ++ texts c ++ behind)) :
    n.ShowsOnce whole := by
  obtain ⟨earlier, shown, later, part, directive, htexts, hpart⟩ := h
  -- The node is shown in the first text or in one of the others.
  cases earlier with
  | nil =>
    have hfirst (c : Conditions) : text c = part c :=
      congrArg Prod.snd (List.cons.inj (htexts c)).1
    have hlater (c : Conditions) : texts c = later := (List.cons.inj (htexts c)).2
    refine ⟨before, name', between ++ later ++ behind, fun c => front ++ part c ++ back,
      directive, fun c => ?_, hpart.trans ⟨front, back, fun _ => rfl⟩⟩
    rw [hwhole, hfirst, hlater]
  | cons t ts =>
    have hfirst (c : Conditions) : text c = t.2 := congrArg Prod.snd (List.cons.inj (htexts c)).1
    have hlater (c : Conditions) : texts c = ts ++ (shown, part c) :: later :=
      (List.cons.inj (htexts c)).2
    refine ⟨before ++ (name', front ++ t.2 ++ back) :: (between ++ ts), shown, later ++ behind,
      part, directive, fun c => ?_, hpart⟩
    rw [hwhole, hfirst, hlater]
    simp only [List.append_assoc, List.cons_append]

/-- Nodes of one type name are shown between the same texts. -/
theorem Hole.exists_texts_eq (hole : Hole) (typeName : String) (style : KeyStyle)
    (conditions : Conditions) :
    ∃ front back before behind, ∀ n : Node, n.typeName = typeName →
      SelectionSet.texts style conditions (hole.fill n) =
        (none, front ++ n.textWith (conditions.directive? hole.key) ++ back) ::
          (before ++ n.nestedFragments.map Fragment.definition ++ behind) := by
  obtain ⟨before, behind, hsorted⟩ := exists_sortByKey_eq hole.before hole.behind hole.key
  let write (e : String × Entry) : String := e.2.text style conditions e.1
  obtain ⟨front, back, hjoined⟩ :=
    exists_intercalate_eq ", " (before.map write) (behind.map write)
  let shownKey := if style.writes hole.explicitKey hole.key typeName then hole.key ++ ": " else ""
  let attached (es : List (String × Entry)) := es.flatMap fun e => e.2.nestedFragments
  refine ⟨front ++ shownKey, back, (attached before).map Fragment.definition,
    (attached behind).map Fragment.definition, fun n hn => ?_⟩
  have htext : SelectionSet.text style conditions (hole.fill n) =
      front ++ (shownKey ++ n.textWith (conditions.directive? hole.key)) ++ back := by
    rw [fill, SelectionSet.text_eq, hsorted, List.map_append, List.map_cons]
    refine (hjoined _).trans ?_
    simp only [Entry.text, shownKey, hn]
  have hnested : SelectionSet.nestedFragments (hole.fill n) =
      attached before ++ n.nestedFragments ++ attached behind := by
    rw [fill, SelectionSet.nestedFragments_eq_flatMap, hsorted, List.flatMap_append,
      List.flatMap_cons, List.append_assoc]
    rfl
  rw [SelectionSet.texts, htext, hnested, List.map_append, List.map_append]
  simp only [String.append_assoc]

namespace SelectionSet.Context

/-- A selection set shows a node in it once, in its own text or in that of one of the fragments
attached in it. -/
theorem showsOnce (C : SelectionSet.Context) (n : Node) (style : KeyStyle)
    (conditions : Conditions) :
    n.ShowsOnce fun c => SelectionSet.texts style conditions (C.fill (n.withConditions c)) := by
  induction C generalizing style conditions with
  | here hole =>
    obtain ⟨front, back, before, behind, htexts⟩ :=
      hole.exists_texts_eq n.typeName style conditions
    refine ⟨[], none, before ++ n.nestedFragments.map Fragment.definition ++ behind, _,
      conditions.directive? hole.key, fun c => ?_, front, back, fun c => rfl⟩
    refine (htexts (n.withConditions c) rfl).trans ?_
    rw [n.nestedFragments_withConditions]
    rfl
  | inNode hole outer inner ih =>
    obtain ⟨front, back, before, behind, htexts⟩ :=
      hole.exists_texts_eq outer.typeName style conditions
    -- The outer node's head stands in front of the text, and its own fragments before the others.
    let head := outer.headText ++ spaced (conditions.directive? hole.key)
    let own := outer.fragments.flatMap fun f => f :: f.nestedFragments
    refine (ih .always outer.conditions).extend none (front ++ head ++ " \x7b ") (" \x7d" ++ back)
      [] (before ++ own.map Fragment.definition) behind fun c => ?_
    let filled := { outer with fields := inner.fill (n.withConditions c) }
    refine (htexts filled rfl).trans ?_
    rw [filled.textWith_eq, Node.fieldsText_of_ne_nil (entries_fill_ne_nil _ _),
      filled.nestedFragments_eq]
    simp only [filled, head, own, Node.headText, List.map_append, List.nil_append,
      List.append_assoc, String.append_assoc]
  | inFragment hole outer before f behind inner ih =>
    -- The node is not in the outer text but in that of the fragment, whose name it is shown under.
    obtain ⟨front, back, earlier, later, htexts⟩ :=
      hole.exists_texts_eq outer.typeName style conditions
    let own (fs : List Fragment) :=
      (fs.flatMap fun f => f :: f.nestedFragments).map Fragment.definition
    let outerText := outer.textWith (conditions.directive? hole.key)
    refine (ih .whenDistinct .empty).extend (some f.name) f.headText " \x7d"
      ((none, front ++ outerText ++ back) :: (earlier ++ own before)) []
      (own behind ++ (SelectionSet.nestedFragments outer.fields).map Fragment.definition ++ later)
      fun c => ?_
    let filled := { f with fields := inner.fill (n.withConditions c) }
    refine (htexts { outer with fragments := before ++ filled :: behind } rfl).trans ?_
    rw [Node.textWith_eq, Node.nestedFragments_eq]
    simp only [filled, own, outerText, outer.textWith_eq, Fragment.definition, Fragment.text,
      Fragment.headText, Fragment.nestedFragments_eq, Node.headText, Node.fieldsText,
      List.flatMap_append, List.flatMap_cons, List.map_append, List.map_cons, List.nil_append,
      List.cons_append, List.append_assoc]

end SelectionSet.Context

namespace Item.Context

/-- An operation or a fragment shows a node in it once, in its own text or in that of one of the
fragments attached in it. -/
theorem showsOnce (C : Item.Context) (n : Node) :
    n.ShowsOnce fun c => (C.fill (n.withConditions c)).texts := by
  let nested (fs : List Fragment) := fs.flatMap fun f => SelectionSet.nestedFragments f.fields
  cases C with
  | operation o inner =>
    let head := o.kind.keyword ++ (if o.name = "" then "" else " " ++ o.name) ++ o.variablesText
    refine (inner.showsOnce n .always .empty).extend none (head ++ " \x7b ") " \x7d" []
      ((o.fragments ++ nested o.fragments).map Fragment.definition) [] fun c => ?_
    simp only [fill, texts, Operation.bodyText, Operation.nestedFragments, head, nested,
      Operation.variablesText, List.map_append, List.nil_append, List.append_nil,
      List.append_assoc]
  | attached o before f behind inner =>
    refine (inner.showsOnce n .whenDistinct .empty).extend (some f.name) f.headText " \x7d"
      ((none, o.bodyText) :: before.map Fragment.definition)
      ((behind ++ nested before).map Fragment.definition)
      ((nested behind ++ SelectionSet.nestedFragments o.fields).map Fragment.definition)
      fun c => ?_
    simp only [fill, texts, Operation.bodyText, Operation.nestedFragments, nested,
      Operation.variablesText, Fragment.definition, Fragment.text, Fragment.headText,
      List.flatMap_append, List.flatMap_cons, List.map_append, List.map_cons, List.cons_append,
      List.append_assoc]
  | fragment f inner =>
    refine (inner.showsOnce n .whenDistinct .empty).extend none f.headText " \x7d" [] [] []
      fun c => ?_
    simp only [fill, texts, Fragment.text, Fragment.headText, Fragment.nestedFragments_eq,
      List.nil_append, List.append_nil]

/-- Whether an item writes a text under this name behind texts under these ones. An operation
writes the first text of each name, and a fragment only its own. -/
def Writes : Item.Context → (earlier : List (Option String)) → (name : Option String) → Prop
  | fragment _ _, earlier, _ => earlier = []
  | _, earlier, name => name ∉ earlier

end Item.Context

namespace Item

/-- Operations with the same texts but for one. -/
theorem text_operation_varies {o : ι → Operation} {earlier later : List (Option String × String)}
    {name : Option String} {text : ι → String}
    (htexts : ∀ i, (operation (o i)).texts = earlier ++ (name, text i) :: later) :
    (name ∉ earlier.map Prod.fst → VaryOnlyIn text fun i => (operation (o i)).text) ∧
    (name ∈ earlier.map Prod.fst → ∃ whole, ∀ i, (operation (o i)).text = whole) := by
  obtain ⟨hgone, hkept⟩ := exists_firstTexts_eq earlier later name
  refine ⟨fun hnot => ?_, fun hmem => ?_⟩
  · obtain ⟨front, back, hfirst⟩ := hkept hnot
    obtain ⟨front', back', hjoined⟩ :=
      exists_intercalate_eq "\n\n" (front.map Prod.snd) (back.map Prod.snd)
    refine ⟨front', back', fun i => ?_⟩
    dsimp only
    rw [text_operation, htexts, hfirst, List.map_append, List.map_cons, hjoined]
  · obtain ⟨kept, hfirst⟩ := hgone hmem
    refine ⟨"\n\n".intercalate (kept.map Prod.snd), fun i => ?_⟩
    rw [text_operation, htexts, hfirst]

/-- Fragments with the same texts but for one. -/
theorem text_fragment_varies {f : ι → Fragment} {earlier later : List (Option String × String)}
    {name : Option String} {text : ι → String}
    (htexts : ∀ i, (fragment (f i)).texts = earlier ++ (name, text i) :: later) :
    (earlier = [] → VaryOnlyIn text fun i => (fragment (f i)).text) ∧
    (earlier ≠ [] → ∃ whole, ∀ i, (fragment (f i)).text = whole) := by
  cases earlier with
  | nil =>
    refine ⟨fun _ => ⟨"", "", fun i => ?_⟩, fun h => absurd rfl h⟩
    rw [String.empty_append, String.append_empty]
    exact congrArg Prod.snd (List.cons.inj (htexts i)).1
  | cons t ts =>
    exact ⟨nofun, fun _ => ⟨t.2, fun i => congrArg Prod.snd (List.cons.inj (htexts i)).1⟩⟩

/-- If only one of the texts of an item varies with the node that is put in, the item varies in
it or, where that text is not written, in nothing. -/
theorem Context.text_varies (C : Context) {n : ι → Node}
    {earlier later : List (Option String × String)} {name : Option String} {text : ι → String}
    (htexts : ∀ i, (C.fill (n i)).texts = earlier ++ (name, text i) :: later) :
    (C.Writes (earlier.map Prod.fst) name → VaryOnlyIn text fun i => (C.fill (n i)).text) ∧
    (¬ C.Writes (earlier.map Prod.fst) name → ∃ whole, ∀ i, (C.fill (n i)).text = whole) := by
  cases C with
  | operation o inner =>
    obtain ⟨hkept, hgone⟩ := text_operation_varies htexts
    exact ⟨hkept, fun h => hgone (not_not.mp h)⟩
  | attached o before f behind inner =>
    obtain ⟨hkept, hgone⟩ := text_operation_varies htexts
    exact ⟨hkept, fun h => hgone (not_not.mp h)⟩
  | fragment f inner =>
    obtain ⟨hkept, hgone⟩ := text_fragment_varies htexts
    exact ⟨fun h => hkept (List.map_eq_nil_iff.mp h), fun h => hgone fun hnil => h (hnil ▸ rfl)⟩

end Item

end QueryDoc
