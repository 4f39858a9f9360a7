import QueryDoc.Proofs.OrderedMap

/-!
# QueryDoc.Proofs.Replay.Edits

What a map holds after a run of edits, said by the edits alone (`OrderedMap.IsReplayOf`): a key is
present if its last edit stores something, and holds what that edit stores; and keys stand in the
order in which they arrived, each with the first edit that stores it after it was last forgotten.

Every map that edits lead to is such a replay (`OrderedMap.isReplayOf_editAll`), and a replay is
determined by its edits up to the order of keys (`OrderedMap.IsReplayOf.perm`).
-/

namespace QueryDoc

/-! ## Edits -/

/-- A change to a map under one key. -/
inductive Edit (α : Type u) where
  | store (key : String) (value : α)
  | forget (key : String)

namespace Edit

def key : Edit α → String
  | store key _ => key
  | forget key => key

@[simp] theorem key_store (key : String) (value : α) : (store key value).key = key := rfl

@[simp] theorem key_forget (key : String) : (forget key : Edit α).key = key := rfl

/-- What an edit leaves under its key. -/
def stored? : Edit α → Option α
  | store _ value => some value
  | forget _ => none

end Edit

/-- The edits of one key, in order. -/
def editsOf (key : String) (es : List (Edit α)) : List (Edit α) := es.filter fun e => e.key = key

/-- Edits that treat each key alike, in whatever order they turn from key to key. -/
def AgreePerKey (es fs : List (Edit α)) : Prop := ∀ key, editsOf key es = editsOf key fs

theorem editsOf_eq_nil {key : String} {es : List (Edit α)} (h : key ∉ es.map Edit.key) :
    editsOf key es = [] := by
  refine List.filter_eq_nil_iff.mpr fun e he => ?_
  rw [decide_eq_true_eq]
  exact fun heq => h (heq ▸ List.mem_map_of_mem he)

/-- It is enough to look at keys that are edited. -/
theorem agreePerKey_of_keys {es fs : List (Edit α)} (keys : List String)
    (hes : es.map Edit.key ⊆ keys) (hfs : fs.map Edit.key ⊆ keys)
    (h : ∀ key ∈ keys, editsOf key es = editsOf key fs) : AgreePerKey es fs := by
  intro key
  by_cases hkey : key ∈ keys
  · exact h key hkey
  · rw [editsOf_eq_nil fun hmem => hkey (hes hmem), editsOf_eq_nil fun hmem => hkey (hfs hmem)]

/-- The last edit of a key. -/
def lastEdit? (key : String) (es : List (Edit α)) : Option (Edit α) := (editsOf key es).getLast?

/-- The edits that store these entries. -/
def storeAll (entries : List (String × α)) : List (Edit α) :=
  entries.map fun e => .store e.1 e.2

/-- Whether a key arrives with the edit at this index: it is stored there and not forgotten
afterwards, and whenever it was stored before it was forgotten in between. -/
@[mk_iff] structure ArrivesAt (es : List (Edit α)) (key : String) (i : Nat) : Prop where
  stored : ∃ value, es[i]? = some (.store key value)
  kept : ∀ j, i < j → es[j]? ≠ some (.forget key)
  earliest : ∀ j value, j < i → es[j]? = some (.store key value) →
    ∃ k, j < k ∧ k < i ∧ es[k]? = some (.forget key)

namespace OrderedMap

def edit (m : OrderedMap α) : Edit α → OrderedMap α
  | .store key value => m.insert key value
  | .forget key => m.erase key

def editAll (m : OrderedMap α) (es : List (Edit α)) : OrderedMap α := es.foldl edit m

/-- A map that holds what these edits lead to. -/
structure IsReplayOf (m : OrderedMap α) (es : List (Edit α)) : Prop where
  distinct : m.HasDistinctKeys
  /-- Under each key stands what its last edit leaves there. -/
  last : ∀ key, m.get? key = (lastEdit? key es).bind Edit.stored?
  arrived : ∀ key, key ∈ m.keys ↔ ∃ i, ArrivesAt es key i
  ordered : m.keys.Pairwise fun a b => ∀ i j, ArrivesAt es a i → ArrivesAt es b j → i < j

end OrderedMap

/-! ## One more edit -/

theorem getElem?_concat_eq_some {es : List β} {e x : β} {i : Nat} :
    (es ++ [e])[i]? = some x ↔ es[i]? = some x ∨ (i = es.length ∧ e = x) := by
  rcases Nat.lt_trichotomy i es.length with h | rfl | h
  · simp [List.getElem?_append_left h, h.ne]
  · simp
  · have hlong : (es ++ [e]).length ≤ i := by simpa using h
    simp [List.getElem?_eq_none hlong, List.getElem?_eq_none h.le, h.ne']

theorem lastEdit?_concat (key : String) (es : List (Edit α)) (e : Edit α) :
    lastEdit? key (es ++ [e]) = if e.key = key then some e else lastEdit? key es := by
  unfold lastEdit? editsOf
  rw [List.filter_append]
  split
  · next h => simp [h]
  · next h => simp [h]

namespace ArrivesAt

variable {es : List (Edit α)} {key : String} {i j : Nat}

theorem lt_length (h : ArrivesAt es key i) : i < es.length := by
  obtain ⟨value, hvalue⟩ := h.stored
  exact (List.getElem?_eq_some_iff.mp hvalue).1

/-- A key arrives once. -/
theorem unique (hi : ArrivesAt es key i) (hj : ArrivesAt es key j) : i = j := by
  by_contra hne
  rcases Nat.lt_or_gt_of_ne hne with h | h
  · obtain ⟨value, hvalue⟩ := hi.stored
    obtain ⟨k, hik, -, hk⟩ := hj.earliest i value h hvalue
    exact hi.kept k hik hk
  · obtain ⟨value, hvalue⟩ := hj.stored
    obtain ⟨k, hjk, -, hk⟩ := hi.earliest j value h hvalue
    exact hj.kept k hjk hk

/-- An edit of another key changes nothing. -/
theorem concat_iff_of_ne {e : Edit α} (h : e.key ≠ key) :
    ArrivesAt (es ++ [e]) key i ↔ ArrivesAt es key i := by
  have hstore (value : α) : e ≠ .store key value := fun heq => h (by rw [heq]; rfl)
  have hforget : e ≠ .forget key := fun heq => h (by rw [heq]; rfl)
  simp only [arrivesAt_iff, ne_eq, getElem?_concat_eq_some, hstore, hforget, and_false, or_false]

/-- A key that is present keeps its place when it is stored again. -/
theorem concat_store (h : ArrivesAt es key i) (value : α) :
    ArrivesAt (es ++ [.store key value]) key i where
  stored := by
    obtain ⟨value, hvalue⟩ := h.stored
    exact ⟨value, getElem?_concat_eq_some.mpr (.inl hvalue)⟩
  kept j hj hforget := by
    obtain hforget | ⟨-, heq⟩ := getElem?_concat_eq_some.mp hforget
    · exact h.kept j hj hforget
    · contradiction
  earliest j value hj hvalue := by
    obtain hvalue | ⟨rfl, -⟩ := getElem?_concat_eq_some.mp hvalue
    · obtain ⟨k, hjk, hki, hk⟩ := h.earliest j value hj hvalue
      exact ⟨k, hjk, hki, getElem?_concat_eq_some.mpr (.inl hk)⟩
    · exact absurd hj (Nat.lt_asymm h.lt_length)

/-- Of the edits that store a key and are not followed by one that forgets it, the first one is
the one that the key arrives with. -/
theorem exists_of_kept {value : α} (hvalue : es[i]? = some (.store key value))
    (hkept : ∀ j, i < j → es[j]? ≠ some (.forget key)) : ∃ i, ArrivesAt es key i := by
  classical
  have hfirst : ∃ i : Nat, (∃ value, es[i]? = some (.store key value)) ∧
      ∀ j, i < j → es[j]? ≠ some (.forget key) := ⟨i, ⟨value, hvalue⟩, hkept⟩
  obtain ⟨hstored, hkept⟩ := Nat.find_spec hfirst
  refine ⟨Nat.find hfirst, hstored, hkept, fun j value hj hvalue => ?_⟩
  by_contra hnone
  refine Nat.find_min hfirst hj ⟨⟨value, hvalue⟩, fun k hjk hk => hnone ⟨k, hjk, ?_, hk⟩⟩
  -- Nothing behind the first such edit forgets the key, and this edit stores it.
  refine lt_of_le_of_ne (not_lt.mp fun hlt => hkept k hlt hk) fun heq => ?_
  obtain ⟨value, hvalue⟩ := hstored
  rw [← heq, hk] at hvalue
  cases hvalue

/-- A key that is absent arrives with the edit that stores it. -/
theorem concat_store_of_absent (h : ∀ i, ¬ ArrivesAt es key i) (value : α) :
    ArrivesAt (es ++ [.store key value]) key es.length where
  stored := ⟨value, getElem?_concat_eq_some.mpr (.inr ⟨rfl, rfl⟩)⟩
  kept j hj hforget := by
    obtain hforget | ⟨rfl, -⟩ := getElem?_concat_eq_some.mp hforget
    · exact absurd hj (Nat.lt_asymm (List.getElem?_eq_some_iff.mp hforget).1)
    · exact absurd hj (Nat.lt_irrefl _)
  earliest j value hj hvalue := by
    obtain hvalue | ⟨rfl, -⟩ := getElem?_concat_eq_some.mp hvalue
    · by_contra hnone
      refine absurd (exists_of_kept hvalue fun k hjk hk => ?_) (not_exists.mpr h)
      have hlength := (List.getElem?_eq_some_iff.mp hk).1
      exact hnone ⟨k, hjk, hlength, getElem?_concat_eq_some.mpr (.inl hk)⟩
    · exact absurd hj (Nat.lt_irrefl _)

/-- A key that is forgotten has not arrived. -/
theorem not_concat_forget : ¬ ArrivesAt (es ++ [.forget key]) key i := by
  intro h
  obtain ⟨value, hvalue⟩ := h.stored
  obtain hvalue | ⟨-, heq⟩ := getElem?_concat_eq_some.mp hvalue
  · exact h.kept es.length (List.getElem?_eq_some_iff.mp hvalue).1
      (getElem?_concat_eq_some.mpr (.inr ⟨rfl, rfl⟩))
  · contradiction

end ArrivesAt

namespace OrderedMap

theorem mem_keys_insert {m : OrderedMap α} {key k : String} {value : α} :
    k ∈ (m.insert key value).keys ↔ k = key ∨ k ∈ m.keys := by
  rw [keys_insert]
  split
  · next h => exact ⟨.inr, fun hk => hk.elim (fun heq => heq ▸ h) id⟩
  · rw [List.mem_append, List.mem_singleton, or_comm]

theorem mem_keys_erase {m : OrderedMap α} {key k : String} :
    k ∈ (m.erase key).keys ↔ k ∈ m.keys ∧ k ≠ key := by
  rw [keys_erase, List.mem_filter, decide_eq_true_eq]

namespace IsReplayOf

variable {m : OrderedMap α} {es : List (Edit α)}

theorem empty : (empty : OrderedMap α).IsReplayOf [] where
  distinct := hasDistinctKeys_empty
  last _ := rfl
  arrived key := by simp [arrivesAt_iff, keys, OrderedMap.empty]
  ordered := .nil

theorem not_arrivesAt (h : m.IsReplayOf es) {key : String} (hkey : key ∉ m.keys) (i : Nat) :
    ¬ ArrivesAt es key i :=
  fun hi => hkey ((h.arrived key).mpr ⟨i, hi⟩)

/-- Storing an absent key puts it behind all others. -/
theorem store_absent (h : m.IsReplayOf es) {key : String} (hkey : key ∉ m.keys) (value : α) :
    (m.insert key value).keys.Pairwise fun a b =>
      ∀ i j, ArrivesAt (es ++ [.store key value]) a i → ArrivesAt (es ++ [.store key value]) b j →
        i < j := by
  have hold {k : String} (hk : k ∈ m.keys) {i : Nat} :
      ArrivesAt (es ++ [.store key value]) k i ↔ ArrivesAt es k i :=
    ArrivesAt.concat_iff_of_ne (e := .store key value) (ne_of_mem_of_not_mem hk hkey).symm
  rw [keys_insert, if_neg hkey, List.pairwise_append]
  refine ⟨h.ordered.imp_of_mem fun ha hb hab i j hi hj => ?_, List.pairwise_singleton _ _, ?_⟩
  · exact hab i j ((hold ha).mp hi) ((hold hb).mp hj)
  · intro a ha b hb i j hi hj
    obtain rfl := List.mem_singleton.mp hb
    rw [hj.unique (ArrivesAt.concat_store_of_absent (h.not_arrivesAt hkey) value)]
    exact ((hold ha).mp hi).lt_length

/-- Storing a present key keeps all places. -/
theorem store_present (h : m.IsReplayOf es) {key : String} (hkey : key ∈ m.keys) (value : α) :
    (m.insert key value).keys.Pairwise fun a b =>
      ∀ i j, ArrivesAt (es ++ [.store key value]) a i → ArrivesAt (es ++ [.store key value]) b j →
        i < j := by
  have hold {k : String} (hk : k ∈ m.keys) {i : Nat}
      (hi : ArrivesAt (es ++ [.store key value]) k i) : ArrivesAt es k i := by
    obtain ⟨j, hj⟩ := (h.arrived k).mp hk
    by_cases heq : key = k
    · subst heq
      rwa [hi.unique (hj.concat_store value)]
    · exact (ArrivesAt.concat_iff_of_ne (e := .store key value) heq).mp hi
  rw [keys_insert, if_pos hkey]
  exact h.ordered.imp_of_mem fun ha hb hab i j hi hj => hab i j (hold ha hi) (hold hb hj)

/-- Forgetting a key closes the gap. -/
theorem forget_ordered (h : m.IsReplayOf es) (key : String) :
    (m.erase key).keys.Pairwise fun a b =>
      ∀ i j, ArrivesAt (es ++ [.forget key]) a i → ArrivesAt (es ++ [.forget key]) b j → i < j := by
  have hold {k : String} (hk : k ∈ (m.erase key).keys) {i : Nat} :
      ArrivesAt (es ++ [.forget key]) k i ↔ ArrivesAt es k i :=
    ArrivesAt.concat_iff_of_ne (mem_keys_erase.mp hk).2.symm
  have hordered := h.ordered.filter fun k => decide (k ≠ key)
  rw [← keys_erase] at hordered
  exact hordered.imp_of_mem fun ha hb hab i j hi hj => hab i j ((hold ha).mp hi) ((hold hb).mp hj)

theorem store (h : m.IsReplayOf es) (key : String) (value : α) :
    (m.insert key value).IsReplayOf (es ++ [.store key value]) where
  distinct := h.distinct.insert key value
  last k := by
    rw [get?_insert, lastEdit?_concat, Edit.key_store, h.last]
    by_cases hk : k = key
    · rw [if_pos hk, if_pos hk.symm]
      rfl
    · rw [if_neg hk, if_neg fun heq => hk heq.symm]
  arrived k := by
    rw [mem_keys_insert]
    by_cases hk : k = key
    · subst hk
      refine iff_of_true (.inl rfl) ?_
      by_cases hkey : k ∈ m.keys
      · obtain ⟨i, hi⟩ := (h.arrived k).mp hkey
        exact ⟨i, hi.concat_store value⟩
      · exact ⟨es.length, ArrivesAt.concat_store_of_absent (h.not_arrivesAt hkey) value⟩
    · have hne : (Edit.store key value).key ≠ k := fun heq => hk heq.symm
      simp only [hk, false_or, h.arrived, ArrivesAt.concat_iff_of_ne hne]
  ordered := by
    by_cases hkey : key ∈ m.keys
    · exact h.store_present hkey value
    · exact h.store_absent hkey value

theorem forget (h : m.IsReplayOf es) (key : String) :
    (m.erase key).IsReplayOf (es ++ [.forget key]) where
  distinct := h.distinct.erase key
  last k := by
    rw [get?_erase, lastEdit?_concat, Edit.key_forget, h.last]
    by_cases hk : k = key
    · rw [if_pos hk, if_pos hk.symm]
      rfl
    · rw [if_neg hk, if_neg fun heq => hk heq.symm]
  arrived k := by
    rw [mem_keys_erase]
    by_cases hk : k = key
    · subst hk
      exact iff_of_false (fun hmem => hmem.2 rfl)
        (not_exists.mpr fun _ => ArrivesAt.not_concat_forget)
    · have hne : (Edit.forget key : Edit α).key ≠ k := fun heq => hk heq.symm
      simp only [hk, ne_eq, not_false_eq_true, and_true, h.arrived, ArrivesAt.concat_iff_of_ne hne]
  ordered := h.forget_ordered key

end IsReplayOf

/-- **Replay**: the edits of an empty map lead to the map that they describe. -/
theorem isReplayOf_editAll_empty (es : List (Edit α)) : (empty.editAll es).IsReplayOf es := by
  induction es using List.reverseRecOn with
  | nil => exact .empty
  | append_singleton es e ih =>
    rw [editAll, List.foldl_append]
    cases e with
    | store key value => exact ih.store key value
    | forget key => exact ih.forget key

theorem editAll_append (m : OrderedMap α) (es fs : List (Edit α)) :
    m.editAll (es ++ fs) = (m.editAll es).editAll fs :=
  List.foldl_append

theorem insertAll_eq_editAll (m : OrderedMap α) (entries : List (String × α)) :
    m.insertAll entries = m.editAll (storeAll entries) := by
  rw [insertAll, editAll, storeAll, List.foldl_map]
  rfl

theorem eraseAll_eq_editAll (m : OrderedMap α) (keys : List String) :
    m.eraseAll keys = m.editAll (keys.map .forget) := by
  rw [eraseAll, editAll, List.foldl_map]
  rfl

/-- A map that has entries already is the replay of storing these, and then of the edits. -/
theorem isReplayOf_editAll {m : OrderedMap α} (h : m.HasDistinctKeys) (es : List (Edit α)) :
    (m.editAll es).IsReplayOf (storeAll m.entries ++ es) := by
  have hstart : empty.editAll (storeAll m.entries) = m := by
    rw [← insertAll_eq_editAll]
    exact h.ofList_entries
  have hreplay := isReplayOf_editAll_empty (storeAll m.entries ++ es)
  rwa [editAll_append, hstart] at hreplay

/-! ## Runs -/

section Runs

variable {σ : Type v} {γ : Type w} {step : σ → γ → σ} (map : σ → OrderedMap α)

/-- Steps that each make some edits of a map make all of these edits, one after the other. -/
theorem editAll_foldl {edits : γ → List (Edit α)}
    (hstep : ∀ s c, map (step s c) = (map s).editAll (edits c)) (s : σ) (cs : List γ) :
    map (cs.foldl step s) = (map s).editAll (cs.flatMap edits) := by
  induction cs generalizing s with
  | nil => rfl
  | cons c cs ih => rw [List.foldl_cons, ih, hstep, List.flatMap_cons, editAll_append]

theorem isReplayOf_foldl {edits : γ → List (Edit α)}
    (hstep : ∀ s c, map (step s c) = (map s).editAll (edits c)) {s : σ}
    (hs : (map s).HasDistinctKeys) (cs : List γ) :
    (map (cs.foldl step s)).IsReplayOf (storeAll (map s).entries ++ cs.flatMap edits) := by
  rw [editAll_foldl map hstep]
  exact isReplayOf_editAll hs _

/-- Where steps only store entries. -/
theorem isReplayOf_foldl_insertAll {entries : γ → List (String × α)}
    (hstep : ∀ s c, map (step s c) = (map s).insertAll (entries c)) {s : σ}
    (hs : (map s).HasDistinctKeys) (cs : List γ) :
    (map (cs.foldl step s)).IsReplayOf (storeAll ((map s).entries ++ cs.flatMap entries)) := by
  have hreplay :=
    isReplayOf_foldl map (fun s c => (hstep s c).trans (insertAll_eq_editAll _ _)) hs cs
  rwa [storeAll, List.map_append, List.map_flatMap]

end Runs

/-! ## Agreement -/

/-- Replays of edits that treat each key alike hold the same under each key. -/
theorem IsReplayOf.get?_eq {m m' : OrderedMap α} {es es' : List (Edit α)} (h : m.IsReplayOf es)
    (h' : m'.IsReplayOf es') (hedits : AgreePerKey es es') (key : String) :
    m.get? key = m'.get? key := by
  rw [h.last, h'.last, lastEdit?, lastEdit?, hedits]

theorem IsReplayOf.perm {m m' : OrderedMap α} {es es' : List (Edit α)} (h : m.IsReplayOf es)
    (h' : m'.IsReplayOf es') (hedits : AgreePerKey es es') : m.entries.Perm m'.entries := by
  rw [List.perm_ext_iff_of_nodup (.of_map _ h.distinct) (.of_map _ h'.distinct)]
  rintro ⟨key, value⟩
  rw [← h.distinct.get?_eq_some_iff, ← h'.distinct.get?_eq_some_iff, h.get?_eq h' hedits]

end OrderedMap

end QueryDoc
