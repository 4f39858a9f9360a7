import QueryDoc.Proofs.Json.Reading
import QueryDoc.Proofs.OrderedMap
import QueryDoc.Stored.Reader
import QueryDoc.Stored.Writer

/-!
# QueryDoc.Proofs.Stored.Structures

Structures, forms and maps read back from the JSON trees that they are stored as, and how deep
arrays and objects nest in these trees (`Json.levels`).

Whether something is read back depends on the room for nesting only. So each lemma about a list
or a map says that it is read exactly if there is room for the deepest of its contents.
-/

namespace QueryDoc

/-! ## Nesting -/

namespace Json

mutual

/-- How many arrays and objects stand in each other in a tree. -/
def levels : Json → Nat
  | array items => itemLevels items + 1
  | object members => memberLevels members + 1
  | _ => 0

/-- The levels of the deepest of these trees. -/
def itemLevels : List Json → Nat
  | [] => 0
  | j :: rest => max j.levels (itemLevels rest)

/-- The levels of the deepest of these members. -/
def memberLevels : List (List Char × Json) → Nat
  | [] => 0
  | (_, j) :: rest => max j.levels (memberLevels rest)

end

/-- The levels of the deepest of these contents. -/
def deepest (members : List (String × Json)) : Nat :=
  memberLevels (members.map fun m => (encodeString m.1, m.2))

theorem deepest_nil : deepest [] = 0 := rfl

@[simp] theorem deepest_cons (m : String × Json) (members : List (String × Json)) :
    deepest (m :: members) = max m.2.levels (deepest members) := rfl

/-- A structure is one level deeper than its deepest member. -/
@[simp] theorem levels_ofMembers (members : List (String × Json)) :
    (ofMembers members).levels = deepest members + 1 := rfl

theorem levels_array (items : List Json) : (array items).levels = itemLevels items + 1 := rfl

@[simp] theorem levels_ofString (s : String) : (ofString s).levels = 0 := rfl

theorem levels_bool (b : Bool) : (bool b).levels = 0 := rfl

/-! ## Well written trees -/

theorem itemsWritten_iff {items : List Json} : ItemsWritten items ↔ ∀ j ∈ items, j.IsWritten := by
  induction items with
  | nil => simp [ItemsWritten]
  | cons j items ih => rw [ItemsWritten, ih, List.forall_mem_cons]

/-- An array can be read back if its items can. -/
theorem isWritten_array {items : List Json} (h : ∀ j ∈ items, j.IsWritten) :
    (array items).IsWritten :=
  itemsWritten_iff.mpr h

theorem isWritten_ofString (s : String) : (ofString s).IsWritten := ⟨s, rfl⟩

/-- A structure can be read back if its members can. -/
theorem isWritten_ofMembers {members : List (String × Json)}
    (h : ∀ m ∈ members, m.2.IsWritten) : (ofMembers members).IsWritten := by
  unfold ofMembers IsWritten
  induction members with
  | nil => trivial
  | cons m members ih =>
    obtain ⟨hm, hmembers⟩ := List.forall_mem_cons.mp h
    exact ⟨⟨m.1, rfl⟩, hm, ih hmembers⟩

end Json

namespace Stored

open Json (deepest)

/-! ## Steps that need room -/

/-- A step that is taken if there is room, in front of others. -/
theorem bind_ite {p : Prop} [Decidable p] (a : α) (f : α → Option β) :
    (if p then some a else none).bind f = if p then f a else none := by
  split <;> rfl

/-! ## Structures and forms -/

/-- The object with the name of a form takes a level. -/
@[simp] theorem levels_tagged (name : String) (content : Json) :
    (tagged name content).levels = content.levels + 1 :=
  congrArg (· + 1) (Nat.max_zero _)

@[simp] theorem toString?_ofString (s : String) : toString? (.ofString s) = some s :=
  Json.decodeString?_encodeString s

/-- A form without content is its name. -/
@[simp] theorem form?_ofString (s : String) : form? (.ofString s) = some (s, none) := by
  simp [form?, Json.ofString, Json.decodeString?_encodeString]

/-- A form with content is found in the object under its name. -/
@[simp] theorem form?_tagged (name : String) (content : Json) :
    form? (tagged name content) = some (name, some content) := by
  simp [form?, tagged, Json.ofMembers, Json.decodeString?_encodeString]

/-- A member is put in its place, if it was not there before. -/
theorem putMember_of_not_mem {key : String} {content : Json}
    {front rest : List (String × Option Json)} (h : key ∉ front.map Prod.fst) :
    putMember key content (front ++ (key, none) :: rest) =
      some (front ++ (key, some content) :: rest) := by
  induction front with
  | nil => simp [putMember]
  | cons place front ih =>
    obtain ⟨name, place⟩ := place
    rw [List.map_cons, List.mem_cons, not_or] at h
    rw [List.cons_append, List.cons_append, putMember.eq_def]
    simp only [if_neg fun heq => h.1 (Eq.symm heq), ih h.2, Option.map_some]

/-- Each member takes the first place that is left. -/
theorem putMembers_append (front : List (String × Json)) {rest : List (String × Json)}
    (h : ((front ++ rest).map Prod.fst).Nodup) :
    putMembers (rest.map fun m => (Json.encodeString m.1, m.2))
        (front.map (fun m => (m.1, some m.2)) ++ rest.map fun m => (m.1, none)) =
      some ((front ++ rest).map fun m => (m.1, some m.2)) := by
  induction rest generalizing front with
  | nil => simp [putMembers]
  | cons m rest ih =>
    have hnew : m.1 ∉ (front.map fun m => (m.1, some m.2)).map Prod.fst := by
      rw [List.map_append, List.map_cons, List.nodup_append] at h
      rw [List.map_map]
      exact fun hmem => h.2.2 m.1 hmem m.1 List.mem_cons_self rfl
    have hrest := ih (front ++ [m]) (by simpa using h)
    rw [List.map_append, List.append_assoc, List.map_singleton, List.singleton_append,
      List.append_assoc, List.singleton_append] at hrest
    rw [List.map_cons, putMembers, Json.decodeString?_encodeString, Option.bind_some, List.map_cons,
      putMember_of_not_mem hnew, Option.bind_some, hrest]

/-- A structure is read field by field. -/
theorem fields?_ofMembers (members : List (String × Json)) (h : (members.map Prod.fst).Nodup) :
    fields? (members.map Prod.fst) (.ofMembers members) =
      some (members.map fun m => some m.2) := by
  have hput := putMembers_append [] h
  rw [List.map_nil, List.nil_append, List.nil_append] at hput
  simp [fields?, Json.ofMembers, List.map_map, Function.comp_def, hput]

/-! ## Lists and maps -/

section Contents

variable {f : Json → Option α} {g : α → Json} (room : Nat)

/-- A list is read if there is room for each of its items. -/
theorem mapM_map {items : List α}
    (h : ∀ a ∈ items, f (g a) = if (g a).levels ≤ room then some a else none) :
    (items.map g).mapM f = if Json.itemLevels (items.map g) ≤ room then some items else none := by
  induction items with
  | nil => simp [Json.itemLevels]
  | cons a items ih =>
    obtain ⟨ha, hitems⟩ := List.forall_mem_cons.mp h
    rw [List.map_cons, List.mapM_cons, ha, ih hitems, Option.bind_eq_bind, bind_ite]
    simp only [Option.bind_eq_bind, Option.pure_def, bind_ite, Json.itemLevels, max_le_iff, ite_and]

/-- A map is read if there is room for each of its contents. -/
theorem entries?_map {entries : List (String × α)}
    (h : ∀ e ∈ entries, f (g e.2) = if (g e.2).levels ≤ room then some e.2 else none) :
    entries? f ((entries.map fun e => (e.1, g e.2)).map fun m => (Json.encodeString m.1, m.2)) =
      if deepest (entries.map fun e => (e.1, g e.2)) ≤ room then some entries else none := by
  induction entries with
  | nil => simp [entries?, Json.deepest_nil]
  | cons e entries ih =>
    obtain ⟨he, hentries⟩ := List.forall_mem_cons.mp h
    simp only [List.map_cons, entries?, Json.decodeString?_encodeString, Option.bind_eq_bind,
      Option.bind_some, he, ih hentries, bind_ite, Json.deepest_cons, max_le_iff, ite_and]

/-- Read back, a map with distinct keys is the map that was stored. -/
theorem map_ofList_entries? {entries : List (String × α)}
    (hkeys : (OrderedMap.mk entries).HasDistinctKeys)
    (h : ∀ e ∈ entries, f (g e.2) = if (g e.2).levels ≤ room then some e.2 else none) :
    (entries? f ((entries.map fun e => (e.1, g e.2)).map fun m =>
        (Json.encodeString m.1, m.2))).map OrderedMap.ofList =
      if deepest (entries.map fun e => (e.1, g e.2)) ≤ room then some ⟨entries⟩ else none := by
  have hmap : OrderedMap.ofList entries = ⟨entries⟩ := hkeys.ofList_entries
  rw [entries?_map room h]
  split
  · rw [Option.map_some, hmap]
  · rfl

end Contents

end Stored

end QueryDoc
