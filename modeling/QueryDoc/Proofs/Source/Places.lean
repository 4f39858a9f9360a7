import QueryDoc.Proofs.Source.Cut

/-!
# QueryDoc.Proofs.Source.Places

Bytes as places in a text. `slice?` takes out what stands between two places, if they lie in
the text, in this order, and neither inside a character. A placed token covers the bytes of its
own characters (`PlacedToken.Covers`), so its slice is its text (`covers_iff`).
-/

namespace QueryDoc.Source

/-! ## Slices -/

/-- A text cut in two behind its first `n` bytes, if a character ends there. -/
def splitAtByte? : (n : Nat) → List Char → Option (List Char × List Char)
  | 0, cs => some ([], cs)
  | _ + 1, [] => none
  | n + 1, c :: cs =>
    if c.utf8Size ≤ n + 1 then
      (splitAtByte? (n + 1 - c.utf8Size) cs).map fun (front, back) => (c :: front, back)
    else none

/-- The text from one byte up to, but without, another one. -/
def slice? (start stop : Nat) (cs : List Char) : Option (List Char) :=
  if start ≤ stop then
    (splitAtByte? start cs).bind fun halves =>
      (splitAtByte? (stop - start) halves.2).map Prod.fst
  else none

/-- A text is cut where its front ends. -/
theorem splitAtByte?_append (front back : List Char) :
    splitAtByte? (byteSize front) (front ++ back) = some (front, back) := by
  induction front with
  | nil => rw [byteSize, splitAtByte?, List.nil_append]
  | cons c front ih =>
    obtain ⟨n, hn⟩ := Nat.exists_eq_succ_of_ne_zero (Nat.ne_of_gt c.utf8Size_pos)
    have hsize : byteSize (c :: front) = n + byteSize front + 1 := by
      rw [byteSize, hn]
      omega
    have hrest : n + byteSize front + 1 - c.utf8Size = byteSize front := by omega
    rw [hsize, List.cons_append, splitAtByte?, if_pos (by omega), hrest, ih]
    rfl

/-- A text can be cut at an offset exactly if one of its fronts has this many bytes. -/
theorem splitAtByte?_eq_some_iff {n : Nat} {cs front back : List Char} :
    splitAtByte? n cs = some (front, back) ↔ cs = front ++ back ∧ n = byteSize front := by
  constructor
  · intro h
    fun_induction splitAtByte? n cs generalizing front with
    | case1 =>
      cases h
      exact ⟨rfl, rfl⟩
    | case2 => contradiction
    | case3 n c cs hle ih =>
      obtain ⟨⟨taken, rest⟩, hsplit, heq⟩ := Option.map_eq_some_iff.mp h
      cases heq
      obtain ⟨rfl, hsize⟩ := ih hsplit
      refine ⟨rfl, ?_⟩
      rw [byteSize, ← hsize]
      omega
    | case4 => contradiction
  · rintro ⟨rfl, rfl⟩
    exact splitAtByte?_append front back

/-- There is a slice exactly where the text can be cut in three at its two ends. -/
theorem slice?_eq_some_iff {start stop : Nat} {cs mid : List Char} :
    slice? start stop cs = some mid ↔
      ∃ front back, cs = front ++ (mid ++ back) ∧ start = byteSize front ∧
        stop = byteSize (front ++ mid) := by
  unfold slice?
  constructor
  · intro h
    split at h
    · next hle =>
      obtain ⟨⟨front, rest⟩, hfront, h⟩ := Option.bind_eq_some_iff.mp h
      obtain ⟨⟨mid, back⟩, hmid, rfl⟩ := Option.map_eq_some_iff.mp h
      obtain ⟨rfl, hstart⟩ := splitAtByte?_eq_some_iff.mp hfront
      obtain ⟨rfl, hstop⟩ := splitAtByte?_eq_some_iff.mp hmid
      refine ⟨front, back, rfl, hstart, ?_⟩
      rw [byteSize_append, ← hstart, ← hstop]
      omega
    · contradiction
  · rintro ⟨front, back, rfl, rfl, rfl⟩
    have hsize : byteSize (front ++ mid) - byteSize front = byteSize mid := by
      rw [byteSize_append]
      omega
    rw [if_pos (by rw [byteSize_append]; omega), splitAtByte?_append, Option.bind_some, hsize,
      splitAtByte?_append]
    rfl

/-- What stands between two offsets is sliced out. -/
theorem slice?_append (front mid back : List Char) :
    slice? (byteSize front) (byteSize (front ++ mid)) (front ++ (mid ++ back)) = some mid :=
  slice?_eq_some_iff.mpr ⟨front, back, rfl, rfl, rfl⟩

/-! ## Placed tokens -/

theorem map_token_placeTokens (start : Nat) (ls : List Lexeme) :
    (placeTokens start ls).map PlacedToken.token = ls.filterMap Lexeme.token? := by
  induction ls generalizing start with
  | nil => rfl
  | cons l ls ih =>
    cases l <;> simp [placeTokens, Lexeme.token?, List.filterMap_cons, ih]

/-- What stands in a place is a token of the text. -/
theorem mem_tokens_of_mem_placeTokens {cs : List Char} {start : Nat} :
    ∀ p ∈ placeTokens start (lexemes cs), p.token ∈ tokens cs := by
  intro p hp
  rw [tokens, ← map_token_placeTokens start]
  exact List.mem_map_of_mem hp

/-- A placed token covers the bytes of its own characters. -/
def PlacedToken.Covers (p : PlacedToken) (cs : List Char) : Prop :=
  ∃ front back, cs = front ++ (p.token.text ++ back) ∧ p.start = byteSize front ∧
    p.stop = byteSize (front ++ p.token.text)

/-- A token stands in its place, behind anything that came before. -/
theorem covers_of_mem_placeTokens {ls : List Lexeme} (front : List Char) :
    ∀ p ∈ placeTokens (byteSize front) ls, p.Covers (front ++ ls.flatMap Lexeme.text) := by
  induction ls generalizing front with
  | nil => exact List.forall_mem_nil _
  | cons l ls ih =>
    have hrest := ih (front ++ l.text)
    rw [byteSize_append, List.append_assoc] at hrest
    cases l with
    | ignored text => exact hrest
    | token t =>
      refine List.forall_mem_cons.mpr ⟨⟨front, ls.flatMap Lexeme.text, rfl, rfl, ?_⟩, hrest⟩
      exact (byteSize_append front t.text).symm

theorem le_start_of_mem_placeTokens {ls : List Lexeme} {start : Nat} :
    ∀ p ∈ placeTokens start ls, start ≤ p.start := by
  induction ls generalizing start with
  | nil => exact List.forall_mem_nil _
  | cons l ls ih =>
    cases l with
    | ignored text => exact fun p hp => (Nat.le_add_right _ _).trans (ih p hp)
    | token t =>
      exact List.forall_mem_cons.mpr ⟨le_rfl, fun p hp => (Nat.le_add_right _ _).trans (ih p hp)⟩

/-- Each token stands behind the one before. -/
theorem pairwise_placeTokens (ls : List Lexeme) (start : Nat) :
    (placeTokens start ls).Pairwise fun p q => p.stop ≤ q.start := by
  induction ls generalizing start with
  | nil => exact .nil
  | cons l ls ih =>
    cases l with
    | ignored text => exact ih _
    | token t => exact .cons le_start_of_mem_placeTokens (ih _)

/-- Each token of a text stands in its place. -/
theorem covers_of_mem_placeTokens_lexemes (cs : List Char) :
    ∀ p ∈ placeTokens 0 (lexemes cs), p.Covers cs := by
  intro p hp
  have hcovers := covers_of_mem_placeTokens [] p hp
  rwa [flatMap_text_lexemes, List.nil_append] at hcovers

/-- The slice that a token covers is its text. -/
theorem PlacedToken.covers_iff {p : PlacedToken} {cs : List Char} :
    p.Covers cs ↔ slice? p.start p.stop cs = some p.token.text :=
  slice?_eq_some_iff.symm

end QueryDoc.Source
