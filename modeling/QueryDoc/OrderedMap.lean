/-!
# QueryDoc.OrderedMap

Maps from text to values that remember the order in which their keys arrived.
Writing to a key that is present keeps its place; erasing a key closes the gap.
Readers see the entries in arrival order (`entries`) or in the order of their
keys (`sorted`).

The lemmas give each operation through the two views `keys` and `get?`, and show
that the operations keep the keys distinct.
-/

namespace QueryDoc

/-- A map keyed by text whose entries are kept in order of arrival. -/
structure OrderedMap (α : Type u) where
  /-- The entries, the key that arrived first in front. -/
  entries : List (String × α)

/-- Entries in ascending order of their keys, compared character by character. -/
def sortByKey (entries : List (String × α)) : List (String × α) :=
  entries.mergeSort fun a b => decide (a.1 ≤ b.1)

namespace OrderedMap

/-! ## Reading -/

/-- The map without entries. -/
def empty : OrderedMap α := ⟨[]⟩

/-- The keys in order of arrival. -/
def keys (m : OrderedMap α) : List String := m.entries.map Prod.fst

/-- The number of entries. -/
def size (m : OrderedMap α) : Nat := m.entries.length

def isEmpty (m : OrderedMap α) : Bool := m.entries.isEmpty

/-- The value stored under a key. -/
def get? (m : OrderedMap α) (key : String) : Option α := m.entries.lookup key

def contains (m : OrderedMap α) (key : String) : Bool := (m.get? key).isSome

/-- The entries in ascending order of their keys. -/
def sorted (m : OrderedMap α) : List (String × α) := sortByKey m.entries

/-- Every key stands for one value only. -/
def HasDistinctKeys (m : OrderedMap α) : Prop := m.keys.Nodup

/-! ## Writing -/

/-- Replaces the value of the first entry with this key, or adds an entry at the end. -/
def put (key : String) (value : α) : List (String × α) → List (String × α)
  | [] => [(key, value)]
  | (k, v) :: rest => if k = key then (key, value) :: rest else (k, v) :: put key value rest

/-- Stores a value: a new key goes last, a known key keeps its place. -/
def insert (m : OrderedMap α) (key : String) (value : α) : OrderedMap α :=
  ⟨put key value m.entries⟩

/-- Stores several values, one after the other. -/
def insertAll (m : OrderedMap α) (entries : List (String × α)) : OrderedMap α :=
  entries.foldl (fun m e => m.insert e.1 e.2) m

/-- The map with these entries, the last one of each key winning. -/
def ofList (entries : List (String × α)) : OrderedMap α := empty.insertAll entries

/-- Forgets a key; an unknown key is ignored. -/
def erase (m : OrderedMap α) (key : String) : OrderedMap α :=
  ⟨m.entries.filter fun e => e.1 ≠ key⟩

/-- Forgets several keys. -/
def eraseAll (m : OrderedMap α) (keys : List String) : OrderedMap α :=
  keys.foldl erase m

/-! ## Keys after each operation -/

theorem map_fst_put (key : String) (value : α) (es : List (String × α)) :
    (put key value es).map Prod.fst =
      if key ∈ es.map Prod.fst then es.map Prod.fst else es.map Prod.fst ++ [key] := by
  induction es with
  | nil => simp [put]
  | cons e rest ih =>
    obtain ⟨k, v⟩ := e
    by_cases hk : k = key
    · simp [put, hk]
    · have hk' : key ≠ k := fun h => hk h.symm
      by_cases hm : key ∈ rest.map Prod.fst
      · simp only [put, if_neg hk, List.map_cons, ih, if_pos hm, List.mem_cons]
        rw [if_pos (Or.inr hm)]
      · simp only [put, if_neg hk, List.map_cons, ih, if_neg hm, List.mem_cons]
        rw [if_neg (by simp only [hk', hm, or_self, not_false_eq_true])]
        rfl

theorem keys_insert (m : OrderedMap α) (key : String) (value : α) :
    (m.insert key value).keys = if key ∈ m.keys then m.keys else m.keys ++ [key] :=
  map_fst_put key value m.entries

theorem keys_erase (m : OrderedMap α) (key : String) :
    (m.erase key).keys = m.keys.filter (· ≠ key) := by
  simp only [keys, erase, List.filter_map]
  rfl

/-! ## Values after each operation -/

theorem lookup_cons_eq_ite (k key : String) (value : α) (es : List (String × α)) :
    ((key, value) :: es).lookup k = if k = key then some value else es.lookup k := by
  by_cases h : k = key
  · simp [h]
  · have hb : (k == key) = false := beq_eq_false_iff_ne.mpr h
    simp [List.lookup_cons, hb, h]

theorem lookup_put (key k : String) (value : α) (es : List (String × α)) :
    (put key value es).lookup k = if k = key then some value else es.lookup k := by
  induction es with
  | nil => simp only [put, lookup_cons_eq_ite]
  | cons e rest ih =>
    obtain ⟨k', v⟩ := e
    by_cases hk : k' = key
    · subst hk
      simp only [put, if_pos, lookup_cons_eq_ite]
      split <;> rfl
    · simp only [put, if_neg hk, lookup_cons_eq_ite, ih]
      by_cases h : k = k'
      · subst h
        simp only [if_neg hk, if_pos]
      · simp only [if_neg h]

theorem get?_insert (m : OrderedMap α) (key k : String) (value : α) :
    (m.insert key value).get? k = if k = key then some value else m.get? k :=
  lookup_put key k value m.entries

theorem lookup_filter_ne (key k : String) (es : List (String × α)) :
    (es.filter fun e => e.1 ≠ key).lookup k = if k = key then none else es.lookup k := by
  induction es with
  | nil => simp
  | cons e rest ih =>
    obtain ⟨k', v⟩ := e
    by_cases hk : k' = key
    · subst hk
      rw [List.filter_cons_of_neg (by simp), ih, lookup_cons_eq_ite]
      split <;> rfl
    · rw [List.filter_cons_of_pos (by simpa using hk), lookup_cons_eq_ite, ih, lookup_cons_eq_ite]
      by_cases h : k = k'
      · subst h
        simp only [if_neg hk, if_pos]
      · simp only [if_neg h]

theorem get?_erase (m : OrderedMap α) (key k : String) :
    (m.erase key).get? k = if k = key then none else m.get? k :=
  lookup_filter_ne key k m.entries

/-! ## Distinct keys -/

theorem hasDistinctKeys_empty : (empty : OrderedMap α).HasDistinctKeys := List.nodup_nil

theorem HasDistinctKeys.insert {m : OrderedMap α} (h : m.HasDistinctKeys) (key : String)
    (value : α) : (m.insert key value).HasDistinctKeys := by
  unfold HasDistinctKeys
  rw [keys_insert]
  split
  · exact h
  · next hk =>
    refine List.nodup_append.mpr ⟨h, by simp, fun a ha b hb e => hk ?_⟩
    rw [← List.mem_singleton.mp hb, ← e]
    exact ha

theorem HasDistinctKeys.insertAll {m : OrderedMap α} (h : m.HasDistinctKeys)
    (es : List (String × α)) : (m.insertAll es).HasDistinctKeys := by
  induction es generalizing m with
  | nil => exact h
  | cons e rest ih => exact ih (h.insert e.1 e.2)

theorem HasDistinctKeys.erase {m : OrderedMap α} (h : m.HasDistinctKeys) (key : String) :
    (m.erase key).HasDistinctKeys := by
  unfold HasDistinctKeys
  rw [keys_erase]
  exact h.filter _

end OrderedMap

end QueryDoc
