import Mathlib
import QueryDoc.OrderedMap

/-!
# QueryDoc.Proofs.OrderedMap

Entries in the order of their keys. The order is strict where keys are distinct
(`pairwise_sortByKey`), and it does not depend on the order in which the entries arrived
(`sortByKey_congr`).
-/

namespace QueryDoc

/-! ## Order of keys -/

/-- Entries are put in order by their keys alone. -/
theorem sortByKey_map (f : String × α → β) (es : List (String × α)) :
    sortByKey (es.map fun e => (e.1, f e)) = (sortByKey es).map fun e => (e.1, f e) := by
  rw [sortByKey, sortByKey, List.map_mergeSort]
  exact fun _ _ _ _ => rfl

theorem map_snd_sortByKey (f : String × α → β) (es : List (String × α)) :
    (sortByKey (es.map fun e => (e.1, f e))).map Prod.snd = (sortByKey es).map f := by
  rw [sortByKey_map, List.map_map]
  rfl

theorem mem_sortByKey {e : String × α} {es : List (String × α)} : e ∈ sortByKey es ↔ e ∈ es :=
  List.mem_mergeSort

theorem sortByKey_perm (es : List (String × α)) : (sortByKey es).Perm es :=
  List.mergeSort_perm es _

theorem isEmpty_sorted (m : OrderedMap α) : m.sorted.isEmpty = m.isEmpty := by
  have hlen : m.sorted.length = m.entries.length := List.length_mergeSort _
  rw [OrderedMap.isEmpty, Bool.eq_iff_iff, List.isEmpty_iff_length_eq_zero,
    List.isEmpty_iff_length_eq_zero, hlen]

/-! ## Distinct keys -/

theorem pairwise_le_sortByKey (es : List (String × α)) :
    (sortByKey es).Pairwise fun a b => a.1 ≤ b.1 := by
  have htrans (a b c : String × α) (hab : decide (a.1 ≤ b.1) = true)
      (hbc : decide (b.1 ≤ c.1) = true) : decide (a.1 ≤ c.1) = true :=
    decide_eq_true (le_trans (of_decide_eq_true hab) (of_decide_eq_true hbc))
  have htotal (a b : String × α) : (decide (a.1 ≤ b.1) || decide (b.1 ≤ a.1)) = true := by
    simpa using le_total a.1 b.1
  exact (List.pairwise_mergeSort htrans htotal es).imp fun hab => of_decide_eq_true hab

/-- Distinct keys ascend strictly. -/
theorem pairwise_sortByKey {es : List (String × α)} (h : (es.map Prod.fst).Nodup) :
    (sortByKey es).Pairwise fun a b => a.1 < b.1 := by
  have hnodup : ((sortByKey es).map Prod.fst).Nodup :=
    ((sortByKey_perm es).map Prod.fst).nodup_iff.mpr h
  have hne : (sortByKey es).Pairwise fun a b => a.1 ≠ b.1 := List.pairwise_map.mp hnodup
  exact ((pairwise_le_sortByKey es).and hne).imp fun hab => lt_of_le_of_ne hab.1 hab.2

/-- Entries with distinct keys have one order, in whatever order they arrived. -/
theorem sortByKey_congr {es fs : List (String × α)} (h : es.Perm fs)
    (hes : (es.map Prod.fst).Nodup) : sortByKey es = sortByKey fs := by
  have hfs : (fs.map Prod.fst).Nodup := (h.map Prod.fst).nodup_iff.mp hes
  refine List.Perm.eq_of_pairwise (fun a b _ _ hab hba => absurd hab hba.not_gt)
    (pairwise_sortByKey hes) (pairwise_sortByKey hfs) ?_
  exact (sortByKey_perm es).trans (h.trans (sortByKey_perm fs).symm)

/-- Whatever its value is, an entry comes to stand between the same other entries. -/
theorem exists_sortByKey_eq (before behind : List (String × α)) (key : String) :
    ∃ front back, ∀ a, sortByKey (before ++ (key, a) :: behind) = front ++ (key, a) :: back := by
  -- The entry is put in order without its value, which tells it from all others.
  let mark (e : String × α) : String × Option α := (e.1, some e.2)
  let marked := before.map mark ++ (key, none) :: behind.map mark
  have hfill (a : α) : before ++ (key, a) :: behind = marked.map fun e => (e.1, e.2.getD a) := by
    simp [marked, mark, Function.comp_def]
  obtain ⟨front, back, hsplit⟩ := List.append_of_mem
    (mem_sortByKey.mpr (show (key, none) ∈ marked by simp [marked]))
  have hperm : (front ++ back).Perm ((before ++ behind).map mark) := by
    rw [List.map_append]
    refine List.Perm.cons_inv (a := (key, none)) ?_
    exact (List.perm_middle.symm.trans (hsplit ▸ sortByKey_perm marked)).trans List.perm_middle
  have hrange : ∃ l : List (String × α), l.map mark = front ++ back := by
    rw [← Set.mem_range, Set.range_list_map]
    intro e he
    obtain ⟨e', -, rfl⟩ := List.mem_map.mp (hperm.subset he)
    exact Set.mem_range_self e'
  obtain ⟨l, hl⟩ := hrange
  obtain ⟨front', back', -, rfl, rfl⟩ := List.map_eq_append_iff.mp hl
  refine ⟨front', back', fun a => ?_⟩
  rw [hfill, sortByKey_map fun e : String × Option α => e.2.getD a, hsplit]
  simp [mark, Function.comp_def]

/-- Where two lists have the same keys in the same order, putting both in order keeps them
side by side. -/
theorem forall₂_sortByKey {R : α → β → Prop} {es : List (String × α)} {fs : List (String × β)}
    (h : List.Forall₂ (fun e f => e.1 = f.1 ∧ R e.2 f.2) es fs) :
    List.Forall₂ (fun e f => e.1 = f.1 ∧ R e.2 f.2) (sortByKey es) (sortByKey fs) := by
  -- Both lists are views of one list of pairs, which is put in order once.
  have hpairs : ∃ ps : List (String × α × β), es = ps.map (fun p => (p.1, p.2.1)) ∧
      fs = ps.map (fun p => (p.1, p.2.2)) ∧ ∀ p ∈ ps, R p.2.1 p.2.2 := by
    induction h with
    | nil => exact ⟨[], rfl, rfl, List.forall_mem_nil _⟩
    | @cons e f _ _ hef _ ih =>
      obtain ⟨ps, rfl, rfl, hR⟩ := ih
      refine ⟨(e.1, e.2, f.2) :: ps, rfl, ?_, List.forall_mem_cons.mpr ⟨hef.2, hR⟩⟩
      rw [List.map_cons, hef.1]
  obtain ⟨ps, rfl, rfl, hR⟩ := hpairs
  rw [sortByKey_map fun p : String × α × β => p.2.1, sortByKey_map fun p : String × α × β => p.2.2,
    List.forall₂_map_left_iff, List.forall₂_map_right_iff, List.forall₂_same]
  exact fun p hp => ⟨rfl, hR p (mem_sortByKey.mp hp)⟩

namespace OrderedMap

instance (m : OrderedMap α) : Decidable m.HasDistinctKeys :=
  inferInstanceAs (Decidable m.keys.Nodup)

theorem mem_entries_of_get? {m : OrderedMap α} {key : String} {a : α} (h : m.get? key = some a) :
    (key, a) ∈ m.entries := by
  obtain ⟨front, back, heq, -⟩ := List.lookup_eq_some_iff.mp h
  rw [heq]
  exact List.mem_append_right _ List.mem_cons_self

/-- With distinct keys an entry is what is stored under its key. -/
theorem HasDistinctKeys.get?_eq_some_iff {m : OrderedMap α} (h : m.HasDistinctKeys) {key : String}
    {a : α} : m.get? key = some a ↔ (key, a) ∈ m.entries := by
  refine ⟨mem_entries_of_get?, fun hmem => ?_⟩
  obtain ⟨front, back, heq⟩ := List.append_of_mem hmem
  refine List.lookup_eq_some_iff.mpr ⟨front, back, heq, fun p hp => bne_iff_ne.mpr ?_⟩
  rw [HasDistinctKeys, keys, heq, List.map_append, List.map_cons, List.nodup_append] at h
  exact fun hkey => h.2.2 p.1 (List.mem_map_of_mem hp) key List.mem_cons_self hkey.symm

/-- In the order of the keys a stored value stands among values of other keys. -/
theorem HasDistinctKeys.exists_sortByKey_eq {m : OrderedMap α} (h : m.HasDistinctKeys)
    {key : String} {a : α} (ha : m.get? key = some a) :
    ∃ front back, sortByKey m.entries = front ++ (key, a) :: back ∧
      ∀ e ∈ front ++ back, e.1 ≠ key := by
  obtain ⟨front, back, hsplit⟩ := List.append_of_mem (mem_sortByKey.mpr (mem_entries_of_get? ha))
  have hperm : ((key, a) :: (front ++ back)).Perm m.entries :=
    List.perm_middle.symm.trans (hsplit ▸ sortByKey_perm m.entries)
  have hnodup : (((key, a) :: (front ++ back)).map Prod.fst).Nodup :=
    (hperm.map Prod.fst).nodup_iff.mpr h
  rw [List.map_cons, List.nodup_cons] at hnodup
  exact ⟨front, back, hsplit, fun e he hkey => hnodup.1 (List.mem_map.mpr ⟨e, he, hkey⟩)⟩

/-- Looking up a key does not depend on the order of the entries. -/
theorem get?_congr {m m' : OrderedMap α} (h : m.entries.Perm m'.entries) (hm : m.HasDistinctKeys)
    (key : String) : m.get? key = m'.get? key := by
  have hm' : m'.HasDistinctKeys := (h.map Prod.fst).nodup_iff.mp hm
  refine Option.ext fun a => ?_
  rw [hm.get?_eq_some_iff, hm'.get?_eq_some_iff, h.mem_iff]

end OrderedMap

namespace OrderedMap

/-! ## Rebuilding maps -/

theorem put_of_not_mem {key : String} {es : List (String × α)} (h : key ∉ es.map Prod.fst)
    (value : α) : put key value es = es ++ [(key, value)] := by
  induction es with
  | nil => rfl
  | cons e es ih =>
    rw [List.map_cons, List.mem_cons, not_or] at h
    rw [put, if_neg fun heq => h.1 heq.symm, ih h.2, List.cons_append]

theorem entries_insertAll_of_nodup {m : OrderedMap α} {es : List (String × α)}
    (h : ((m.entries ++ es).map Prod.fst).Nodup) : (m.insertAll es).entries = m.entries ++ es := by
  induction es generalizing m with
  | nil => exact (List.append_nil _).symm
  | cons e es ih =>
    have hnew : e.1 ∉ m.entries.map Prod.fst := by
      rw [List.map_append, List.map_cons, List.nodup_append] at h
      exact fun hmem => h.2.2 e.1 hmem e.1 List.mem_cons_self rfl
    have hentries : (m.insert e.1 e.2).entries = m.entries ++ [e] := put_of_not_mem hnew e.2
    rw [List.append_cons, ← hentries] at h ⊢
    exact ih h

/-- A map is made of its own entries. -/
theorem HasDistinctKeys.ofList_entries {m : OrderedMap α} (h : m.HasDistinctKeys) :
    ofList m.entries = m := by
  have hentries : (ofList m.entries).entries = m.entries := entries_insertAll_of_nodup h
  cases m
  exact congrArg OrderedMap.mk hentries

end OrderedMap

end QueryDoc
