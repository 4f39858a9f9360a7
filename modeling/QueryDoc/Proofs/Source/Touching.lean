import QueryDoc.Proofs.Source.Pieces

/-!
# QueryDoc.Proofs.Source.Touching

The tokens of a masked text in which something may touch a placeholder. A placeholder is
written with nothing around it, so it can grow together with a name in front of it, and with
names, digits and other placeholders behind it.

* Nothing else happens to the tokens: those that grow together come out as one name
  (`merged_mask`), so no float and no object can come into being.
* No name that comes out longer stands for a literal. Behind a placeholder the first
  underscore ends its digits, and in front of one the stem would have its letter `p` in a
  second place. What is formatted is therefore unmasked in exactly the places that masking
  has filled (`literalOf?_eq_some_iff`).
-/

namespace QueryDoc.Source

open Masked (textFrom)

/-! ## Names that are made like placeholders -/

section Stem

variable {stem : List Char} {i j : Nat}

/-- What a name that stands for a literal is made of. -/
theorem exists_digits_of_placeholderIndex? {name : List Char}
    (h : placeholderIndex? stem name = some i) :
    ∃ ds, name = stem ++ (ds ++ ['_', '_']) ∧ (∀ c ∈ ds, c.isDigit = true) ∧
      Decimal.ofDigits ds = i := by
  obtain ⟨rest, hrest, h⟩ := Option.bind_eq_some_iff.mp h
  obtain ⟨ds, hds, h⟩ := Option.bind_eq_some_iff.mp h
  obtain ⟨back, hback, rfl⟩ := Option.map_eq_some_iff.mp hds
  have hlast := congrArg List.reverse (eq_append_of_stripFront hback)
  simp only [List.reverse_reverse, List.reverse_append] at hlast
  split at h
  · next hdigits =>
    refine ⟨back.reverse, ?_, List.all_eq_true.mp hdigits.2, Option.some.inj h⟩
    rw [eq_append_of_stripFront hrest, hlast]
  · contradiction

/-- Nothing behind a placeholder belongs to a name that stands for a literal. -/
theorem eq_nil_of_placeholder_append {rest : List Char}
    (h : placeholderIndex? stem (placeholder stem i ++ rest) = some j) : rest = [] ∧ j = i := by
  obtain ⟨ds, hname, hds, hj⟩ := exists_digits_of_placeholderIndex? h
  have hunder : '_'.isDigit = false := by decide
  have htail : Decimal.digits i ++ ('_' :: '_' :: rest) = ds ++ ['_', '_'] := by
    simpa [placeholder] using hname
  have hfront := congrArg (List.takeWhile Char.isDigit) htail
  rw [takeWhile_append_of_head (fun _ => Decimal.isDigit_of_mem_digits) (by simp [hunder]),
    takeWhile_append_of_head hds (by simp [hunder])] at hfront
  subst hfront
  simpa [← hj, Decimal.ofDigits_digits] using htail

/-- Nothing in front of a placeholder does. -/
theorem placeholderIndex?_append_placeholder (hstem : IsStem stem) {front : List Char}
    (hfront : front ≠ []) (rest : List Char) :
    placeholderIndex? stem (front ++ (placeholder stem i ++ rest)) = none := by
  by_contra hsome
  obtain ⟨j, hj⟩ := Option.ne_none_iff_exists'.mp hsome
  obtain ⟨ds, hname, hds, -⟩ := exists_digits_of_placeholderIndex? hj
  -- The letter of the stem inside the placeholder is one of the stem in front, too.
  have hletter : (stem ++ (ds ++ ['_', '_']))[front.length + 2]? = some 'p' := by
    have hp := (hstem.letter 2).mpr rfl
    have hlt : 2 < stem.length := (List.getElem?_eq_some_iff.mp hp).1
    rw [← hname, placeholder]
    simp only [List.append_assoc]
    rw [List.getElem?_append_right (by omega), Nat.add_sub_cancel_left,
      List.getElem?_append_left hlt, hp]
  have hpos := List.length_pos_iff.mpr hfront
  rw [List.getElem?_append] at hletter
  split at hletter
  · have htwo := (hstem.letter _).mp hletter
    omega
  · have hmem := List.mem_of_getElem? hletter
    have hdigit : 'p' ∈ ds → False := fun hp => absurd (hds _ hp) (by decide)
    simp at hmem
    exact hdigit hmem

end Stem

/-! ## Lexemes in front of name characters -/

/-- The text of an integer without sign consists of digits. -/
theorem isDigit_of_mem_splitNumber {c d : Char} {cs : List Char} (hc : c.isDigit = true)
    (hkind : (splitNumber (c :: cs)).1.kind = .int) (hd : d ∈ (splitNumber (c :: cs)).1.text) :
    d.isDigit = true := by
  have hminus : splitMinus (c :: cs) = ([], c :: cs) := by
    refine splitMinus_eq_nil ?_
    rintro ⟨⟩
    contradiction
  have hparts : (splitNumber (c :: cs)).1.fraction = [] ∧
      (splitNumber (c :: cs)).1.exponent = [] := by
    unfold NumberText.kind at hkind
    grind
  rw [NumberText.text, hparts.1, hparts.2, List.append_nil, List.append_nil] at hd
  simp only [splitNumber, hminus, List.nil_append] at hd
  exact forall_mem_takeWhile _ d hd

/-- A lexeme other than a float that begins with a name character is a name, or an integer
without sign. -/
theorem Lexeme.EndsBefore.of_isNameChar {l : Lexeme} {rest : List Char}
    (h : l.EndsBefore rest) (hf : l.kind? ≠ some .float)
    (hhead : ∃ c ∈ l.text.head?, isNameChar c = true) :
    (l.kind? = some .name ∨ l.kind? = some .int) ∧ ∀ c ∈ l.text, isNameChar c = true := by
  obtain ⟨c, hc, hname⟩ := hhead
  obtain ⟨body, htext⟩ := List.head?_eq_some_iff.mp hc
  rw [endsBefore_iff_splitLexeme (by rw [htext, List.cons_append])] at h
  obtain hs | hdigit := isNameStart_or_isDigit hname
  · rw [splitLexeme_name hs] at h
    obtain rfl := (congrArg Prod.fst h).symm
    exact ⟨.inl rfl, List.forall_mem_cons.mpr ⟨hname, forall_mem_takeWhile _⟩⟩
  · rw [splitLexeme_number (.inr hdigit)] at h
    obtain rfl := (congrArg Prod.fst h).symm
    have hint := (NumberText.kind_eq _).resolve_right fun hk => hf (congrArg some hk)
    exact ⟨.inr (congrArg some hint),
      fun d hd => isNameChar_digit (isDigit_of_mem_splitNumber hdigit hint hd)⟩

/-! ## Floats that stay -/

/-- Segments in which no float stays, up to an object that is never closed. -/
inductive HoldsFloats : List Segment → Prop where
  | nil : HoldsFloats []
  | kept {l : Lexeme} {rest : List Segment} (hf : l.kind? ≠ some .float)
    (hrest : HoldsFloats rest) :
    HoldsFloats (.kept l :: rest)
  | held {run : List Lexeme} {rest : List Segment} (hrest : HoldsFloats rest) :
    HoldsFloats (.held run :: rest)
  | unclosed (ls : List Lexeme) : HoldsFloats ((brace '{' :: ls).map .kept)

theorem IsSegmentation.holdsFloats {segments : List Segment} (h : IsSegmentation segments) :
    HoldsFloats segments := by
  induction h with
  | nil => exact .nil
  | kept hf _ ih => exact .kept hf ih
  | held _ _ ih => exact .held ih
  | unclosed ls => exact .unclosed ls

/-! ## Name characters in front of a masked text -/

section NameCharacters

variable {front rest : List Char}

theorem takeWhile_name_append (h : ∀ c ∈ front, isNameChar c = true) :
    (front ++ rest).takeWhile isNameChar = front ++ rest.takeWhile isNameChar :=
  List.takeWhile_append_of_pos h

theorem dropWhile_name_append (h : ∀ c ∈ front, isNameChar c = true) :
    (front ++ rest).dropWhile isNameChar = rest.dropWhile isNameChar :=
  List.dropWhile_append_of_pos h

theorem takeWhile_append_eq_nil (rest : List Char) (hf : front ≠ [])
    (h : ¬ ∃ c ∈ front.head?, isNameChar c = true) :
    (front ++ rest).takeWhile isNameChar = [] ∧
      (front ++ rest).dropWhile isNameChar = front ++ rest := by
  cases front with
  | nil => contradiction
  | cons c front => simpa using h

end NameCharacters

section MaskedText

variable {stem : List Char} {i : Nat} {segments : List Segment}

theorem takeWhile_unclosed (ls : List Lexeme) :
    (textFrom stem i ((brace '{' :: ls).map .kept)).takeWhile isNameChar = [] ∧
      (textFrom stem i ((brace '{' :: ls).map .kept)).dropWhile isNameChar =
        textFrom stem i ((brace '{' :: ls).map .kept) := by
  have hbrace : isNameChar '{' = false := by decide
  simp [textFrom, brace, Lexeme.text, hbrace]

/-- What stands behind a lexeme that is no name ends it as in the document. -/
theorem lexemes_kept_append {l : Lexeme} (hstem : IsStem stem)
    (h : IsMasking (.kept l :: segments)) (hk : l.kind? ≠ some .name) :
    lexemes (l.text ++ textFrom stem i segments) = l :: lexemes (textFrom stem i segments) :=
  (h.endsBefore.transfer (endsLike_textFrom hstem i h.of_cons).2 fun hname =>
    absurd hname hk).lexemes_append

/-- Behind a name of the document stands nothing that goes on with it, or a placeholder. -/
theorem takeWhile_textFrom_of_name {name : List Char} (hstem : IsStem stem)
    (hn : isName name = true) (h : IsMasking (.kept (.token ⟨.name, name⟩) :: segments)) :
    (textFrom stem i segments).takeWhile isNameChar = [] ∨
      ∃ rest, (textFrom stem i segments).takeWhile isNameChar = placeholder stem i ++ rest := by
  have hend := head_of_endsBefore_name hn h.endsBefore
  cases segments with
  | nil => simp [textFrom]
  | cons s segments =>
    cases s with
    | kept l =>
      obtain ⟨c, body, ht⟩ := List.exists_cons_of_ne_nil h.of_cons.endsBefore.text_ne_nil
      simp_all [textFrom]
    | held run =>
      exact .inr ⟨_, takeWhile_name_append (forall_isNameChar_of_isName
        (hstem.isName_placeholder i))⟩

/-- A name of the document that goes on in the masked text is not made like a placeholder. -/
theorem placeholderIndex?_name_textFrom {name : List Char} (hstem : IsStem stem)
    (hn : isName name = true) (h : IsMasking (.kept (.token ⟨.name, name⟩) :: segments)) :
    (textFrom stem i segments).takeWhile isNameChar = [] ∨
      placeholderIndex? stem (name ++ (textFrom stem i segments).takeWhile isNameChar) = none := by
  refine (takeWhile_textFrom_of_name hstem hn h).imp_right ?_
  rintro ⟨more, hmore⟩
  rw [hmore]
  exact placeholderIndex?_append_placeholder hstem (ne_nil_of_isName hn) more

theorem textFrom_map_kept (ls : List Lexeme) :
    textFrom stem i (ls.map .kept) = ls.flatMap Lexeme.text := by
  induction ls with
  | nil => rfl
  | cons l ls ih => simp [textFrom, ih]

theorem flatMap_lexemes_map_kept (ls : List Lexeme) :
    (ls.map Segment.kept).flatMap Segment.lexemes = ls := by
  simp [List.flatMap_map, Segment.lexemes]

end MaskedText

/-! ## Tokens that have grown together -/

/-- The strings in a row of tokens. -/
def stringTokens (ts : List Token) : List Token := ts.filter fun t => t.kind == .string

/-- Rows of which the second comes from the first by leaving out names and integers behind a
name. What they grow together to is not made like a placeholder. -/
inductive Merged (stem : List Char) : List Token → List Token → Prop where
  | nil : Merged stem [] []
  | cons (t : Token) {ts us : List Token} (h : Merged stem ts us) :
    Merged stem (t :: ts) (t :: us)
  | grown {t u : Token} {ks ts us : List Token} (ht : t.kind = .name) (hu : u.kind = .name)
    (hnew : placeholderIndex? stem u.text = none)
    (hks : ∀ k ∈ ks, k.kind = .name ∨ k.kind = .int) (h : Merged stem ts us) :
    Merged stem (t :: (ks ++ ts)) (u :: us)

theorem Merged.refl (stem : List Char) (ts : List Token) : Merged stem ts ts := by
  induction ts with
  | nil => exact .nil
  | cons t ts ih => exact .cons t ih

theorem Merged.subset_kinds {stem : List Char} {ts us : List Token} (h : Merged stem ts us) :
    us.map Token.kind ⊆ ts.map Token.kind := by
  induction h with
  | nil => simp
  | cons t _ ih => exact List.cons_subset_cons _ ih
  | grown ht hu _ _ _ ih =>
    rw [List.map_cons, List.map_cons, List.map_append, ht, hu]
    exact List.cons_subset_cons _ (List.Subset.trans ih (List.subset_append_right _ _))

theorem Merged.strings_eq {stem : List Char} {ts us : List Token} (h : Merged stem ts us) :
    stringTokens us = stringTokens ts := by
  unfold stringTokens
  induction h with
  | nil => rfl
  | cons t _ ih => rw [List.filter_cons, List.filter_cons, ih]
  | @grown t u ks ts us ht hu _ hks _ ih =>
    have hnone : ks.filter (fun k => k.kind == .string) = [] := by
      refine List.filter_eq_nil_iff.mpr fun k hk => ?_
      obtain h | h := hks k hk <;> simp [h]
    rw [List.filter_cons_of_neg (by simp [hu]), List.filter_cons_of_neg (by simp [ht]),
      List.filter_append, hnone, List.nil_append, ih]

/-- Tokens that are made like placeholders do not become more. -/
theorem Merged.count_le {stem : List Char} {ts us : List Token} (h : Merged stem ts us)
    {t : Token} (ht : placeholderIndex? stem t.text ≠ none) : us.count t ≤ ts.count t := by
  induction h with
  | nil => exact Nat.le_refl _
  | cons u _ ih =>
    rw [List.count_cons, List.count_cons]
    exact Nat.add_le_add_right ih _
  | @grown _ u _ ts us _ _ hnew _ _ ih =>
    have hne : u ≠ t := by
      rintro rfl
      exact ht hnew
    rw [List.count_cons_of_ne hne]
    refine ih.trans ?_
    rw [List.count_cons, List.count_append]
    omega

/-- Whether anything is held back from a row of kinds, with or without an object pending. -/
def holdsFrom (nesting : List Bracket) (previous : Option TokenKind) (pending : Bool) :
    List TokenKind → Bool
  | [] => false
  | k :: ks =>
    let (role, nesting) := roleOf nesting previous k
    match role, pending with
    | .opensObject, false => holdsFrom nesting (some k) true ks
    | .closesOutermost, true => true
    | .float, false => true
    | _, pending => holdsFrom nesting (some k) pending ks

theorem heldRuns_piecesFrom_eq_nil_iff (kind : α → TokenKind) (nesting : List Bracket)
    (previous : Option TokenKind) (pending : Option (List α)) (as : List α) :
    heldRuns (piecesFrom kind nesting previous pending as) = [] ↔
      holdsFrom nesting previous pending.isSome (as.map kind) = false := by
  induction as generalizing nesting previous pending with
  | nil => simp [piecesFrom, heldRuns, holdsFrom]
  | cons a as ih =>
    rw [piecesFrom, List.map_cons, holdsFrom]
    generalize roleOf nesting previous (kind a) = step
    obtain ⟨role, nesting⟩ := step
    cases role <;> cases pending <;> simp [ih, heldRuns_held]

/-- Behind a name and behind an integer a brace means the same. -/
theorem holdsFrom_int (nesting : List Bracket) (pending : Bool) (ks : List TokenKind) :
    holdsFrom nesting (some .int) pending ks = holdsFrom nesting (some .name) pending ks := by
  cases ks with
  | nil => rfl
  | cons k ks =>
    have hrole : roleOf nesting (some .int) k = roleOf nesting (some .name) k := by
      simp [roleOf, opensObject]
    rw [holdsFrom, holdsFrom, hrole]

theorem holdsFrom_names {ts : List Token} (hts : ∀ t ∈ ts, t.kind = .name ∨ t.kind = .int)
    (nesting : List Bracket) (pending : Bool) (ks : List TokenKind) :
    holdsFrom nesting (some .name) pending (ts.map Token.kind ++ ks) =
      holdsFrom nesting (some .name) pending ks := by
  induction ts with
  | nil => rfl
  | cons t ts ih =>
    obtain ⟨ht, hts⟩ := List.forall_mem_cons.mp hts
    rw [← ih hts, List.map_cons, List.cons_append]
    obtain ht | ht := ht <;> rw [ht] <;> simp [holdsFrom, roleOf, holdsFrom_int]

/-- Where nothing is held back, nothing is after tokens have grown together. -/
theorem Merged.holdsFrom_eq {stem : List Char} {ts us : List Token} (h : Merged stem ts us)
    (nesting : List Bracket) (previous : Option TokenKind) (pending : Bool) :
    holdsFrom nesting previous pending (us.map Token.kind) =
      holdsFrom nesting previous pending (ts.map Token.kind) := by
  induction h generalizing nesting previous pending with
  | nil => rfl
  | cons t _ ih => simp only [List.map_cons, holdsFrom, ih]
  | grown ht hu _ hks _ ih =>
    rw [List.map_cons, List.map_cons, List.map_append, ht, hu]
    simp [holdsFrom, roleOf, ih, holdsFrom_names hks]

section MaskedText

variable {stem : List Char} {i : Nat} {segments : List Segment}

theorem maskedTokens_map_kept (ls : List Lexeme) :
    maskedTokens stem i (ls.map .kept) = ls.filterMap Lexeme.token? := by
  induction ls with
  | nil => rfl
  | cons l ls ih => cases l <;> simp [maskedTokens, Lexeme.token?, List.filterMap_cons, ih]

/-- What becomes of a row of tokens behind a name that goes on with the first characters of
their text. -/
def MergedBehind (stem : List Char) (row : List Token) (text : List Char) : Prop :=
  ∃ ks ts, row = ks ++ ts ∧ (∀ k ∈ ks, k.kind = .name ∨ k.kind = .int) ∧
    (text.takeWhile isNameChar = [] → ks = []) ∧
    Merged stem ts (tokens (text.dropWhile isNameChar))

/-- A name with something behind it either ends there, or grows. -/
theorem MergedBehind.merged_name {name text : List Char} {row : List Token}
    (hn : isName name = true) (h : MergedBehind stem row text)
    (hnew : text.takeWhile isNameChar = [] ∨
      placeholderIndex? stem (name ++ text.takeWhile isNameChar) = none) :
    Merged stem (⟨.name, name⟩ :: row) (tokens (name ++ text)) := by
  obtain ⟨ks, ts, rfl, hks, hends, hts⟩ := h
  rw [tokens_name_append hn]
  obtain hnil | hnew := hnew
  · rw [hends hnil, hnil, List.append_nil]
    exact .cons _ hts
  · exact .grown rfl rfl hnew hks hts

theorem MergedBehind.cons {text : List Char} {row : List Token} {front : List Char} {t : Token}
    (hk : t.kind = .name ∨ t.kind = .int) (hne : front ≠ [])
    (hfront : ∀ c ∈ front, isNameChar c = true) (h : MergedBehind stem row text) :
    MergedBehind stem (t :: row) (front ++ text) := by
  obtain ⟨ks, ts, rfl, hks, -, hts⟩ := h
  refine ⟨t :: ks, ts, rfl, List.forall_mem_cons.mpr ⟨hk, hks⟩, fun hnil => ?_, ?_⟩
  · rw [takeWhile_name_append hfront] at hnil
    exact absurd (List.append_eq_nil_iff.mp hnil).1 hne
  · rwa [dropWhile_name_append hfront]

theorem Merged.behind {text : List Char} {row : List Token} (h : Merged stem row (tokens text))
    (hstart : text.dropWhile isNameChar = text) : MergedBehind stem row text :=
  ⟨[], row, rfl, by simp, fun _ => rfl, by rwa [hstart]⟩

/-- The tokens of a masked text are the expected ones except for those that grow together. -/
theorem merged_textFrom (hstem : IsStem stem) (h : IsMasking segments) (hf : HoldsFloats segments)
    (hkept : ∀ t, .kept (.token t) ∈ segments → placeholderIndex? stem t.text = none) :
    Merged stem (maskedTokens stem i segments) (tokens (textFrom stem i segments)) ∧
      MergedBehind stem (maskedTokens stem i segments) (textFrom stem i segments) := by
  induction hf generalizing i with
  | nil =>
    have hnil : Merged stem [] (tokens []) := by simpa [tokens, lexemes] using Merged.nil
    exact ⟨hnil, hnil.behind rfl⟩
  | @kept l rest hf _ ih =>
    obtain ⟨ihAll, ihBehind⟩ := @ih i h.of_cons fun t ht => hkept t (List.mem_cons_of_mem _ ht)
    rw [textFrom, maskedTokens]
    have hall : Merged stem (l.token?.toList ++ maskedTokens stem i rest)
        (tokens (l.text ++ textFrom stem i rest)) := by
      by_cases hk : l.kind? = some .name
      · obtain ⟨name, rfl⟩ := Lexeme.exists_name_of_kind? hk
        have hn : isName name = true := h.forms ⟨.name, name⟩ (by simp [Segment.lexemes])
        exact ihBehind.merged_name hn (placeholderIndex?_name_textFrom hstem hn h)
      · rw [tokens, lexemes_kept_append hstem h hk]
        cases l with
        | ignored text => exact ihAll
        | token t => exact .cons t ihAll
    refine ⟨hall, ?_⟩
    by_cases hhead : ∃ c ∈ l.text.head?, isNameChar c = true
    · obtain ⟨hkind, hchars⟩ := h.endsBefore.of_isNameChar hf hhead
      cases l with
      | ignored text => simp [Lexeme.kind?, Lexeme.token?] at hkind
      | token t =>
        exact .cons (by simpa [Lexeme.kind?, Lexeme.token?] using hkind)
          h.endsBefore.text_ne_nil hchars ihBehind
    · exact hall.behind (takeWhile_append_eq_nil _ h.endsBefore.text_ne_nil hhead).2
  | @held run rest _ ih =>
    obtain ⟨-, ihBehind⟩ := @ih (i + 1) h.of_cons fun t ht => hkept t (List.mem_cons_of_mem _ ht)
    have hn := hstem.isName_placeholder i
    rw [textFrom, maskedTokens]
    refine ⟨ihBehind.merged_name hn ?_,
      .cons (.inl rfl) (ne_nil_of_isName hn) (forall_isNameChar_of_isName hn) ihBehind⟩
    -- With anything grown onto it, a placeholder stands for nothing any more.
    by_contra hboth
    obtain ⟨hne, hsome⟩ := not_or.mp hboth
    obtain ⟨j, hj⟩ := Option.ne_none_iff_exists'.mp hsome
    exact hne (eq_nil_of_placeholder_append hj).1
  | unclosed ls =>
    have hcut := lexemes_flatMap_text h.cut
    rw [flatMap_lexemes_map_kept] at hcut
    have hall : Merged stem (maskedTokens stem i ((brace '{' :: ls).map .kept))
        (tokens (textFrom stem i ((brace '{' :: ls).map .kept))) := by
      rw [maskedTokens_map_kept, textFrom_map_kept, tokens, hcut]
      exact .refl stem _
    exact ⟨hall, hall.behind (takeWhile_unclosed ls).2⟩

end MaskedText

/-- **Tokens that touch**: the tokens of a masked text are the expected ones, except that
names and integers behind a name can grow together with it. -/
theorem merged_mask (document : List Char) :
    Merged (mask document).stem
      (maskedTokens (mask document).stem 0 (mask document).segments)
      (tokens (mask document).text) :=
  (merged_textFrom (isStem_placeholderStem document) (isMasking_segments document)
    (isSegmentation_mask document).holdsFloats fun _ ht =>
      placeholderIndex?_of_mem_tokens (mem_tokens_of_kept_segment ht)).1

theorem not_float_of_mem_text {document : List Char}
    (h : ∀ t ∈ maskedTokens (mask document).stem 0 (mask document).segments, t.kind ≠ .float) :
    ∀ t ∈ tokens (mask document).text, t.kind ≠ .float := by
  intro t ht hk
  obtain ⟨u, hu, hkind⟩ := List.mem_map.mp
    ((merged_mask document).subset_kinds (List.mem_map_of_mem (f := Token.kind) ht))
  exact h u hu (hkind.trans hk)

/-- If nothing is held back from the tokens that stay and the names between them, nothing is
from the masked text. -/
theorem runs_mask_text {document : List Char}
    (h : heldRuns (pieces Token.kind
      (maskedTokens (mask document).stem 0 (mask document).segments)) = []) :
    (mask (mask document).text).runs = [] := by
  rw [pieces, heldRuns_piecesFrom_eq_nil_iff] at h
  rwa [runs_mask, pieces, heldRuns_piecesFrom_eq_nil_iff, (merged_mask document).holdsFrom_eq]

/-! ## Placeholders in their places -/

/-- The placeholders that are written for segments from the given byte on, counted from `i`,
each with the literal that it is written for. -/
def placedLiterals (stem : List Char) (start i : Nat) :
    List Segment → List (PlacedToken × List Char)
  | [] => []
  | .kept l :: rest => placedLiterals stem (start + byteSize l.text) i rest
  | .held run :: rest =>
    let stop := start + byteSize (placeholder stem i)
    (⟨placeholderToken stem i, start, stop⟩, layOut (run.filterMap Lexeme.token?)) ::
      placedLiterals stem stop (i + 1) rest

theorem map_snd_placedLiterals (m : Masked) (start i : Nat) :
    (placedLiterals m.stem start i m.segments).map Prod.snd = m.literals := by
  rw [Masked.literals]
  induction m.segments generalizing start i with
  | nil => rfl
  | cons s segments ih => cases s <;> simp [placedLiterals, ih]

theorem token_of_getElem?_placedLiterals {stem : List Char} {start i k : Nat}
    {segments : List Segment} {written : PlacedToken × List Char}
    (h : (placedLiterals stem start i segments)[k]? = some written) :
    written.1.token = placeholderToken stem (i + k) := by
  induction segments generalizing start i k with
  | nil => simp [placedLiterals] at h
  | cons s segments ih =>
    cases s with
    | kept l => exact ih h
    | held run =>
      cases k with
      | zero =>
        obtain rfl := Option.some.inj h
        rfl
      | succ k =>
        rw [ih h, Nat.add_assoc, Nat.add_comm 1]

/-- Whether a token that is made like a placeholder is the one of its number, counted from `i`,
among those that have been written. -/
def IsWritten (stem : List Char) (i : Nat) (written : List (PlacedToken × List Char))
    (p : PlacedToken) : Prop :=
  p.token.kind = .name → ∀ j, placeholderIndex? stem p.token.text = some j →
    ∃ k, j = i + k ∧ (written.map Prod.fst)[k]? = some p

section Written

variable {stem : List Char} {start i : Nat} {written : List (PlacedToken × List Char)}
  {p : PlacedToken}

theorem isWritten_of_none (h : placeholderIndex? stem p.token.text = none) :
    IsWritten stem i written p := by
  simp [IsWritten, h]

theorem isWritten_of_kind_ne (h : p.token.kind ≠ .name) : IsWritten stem i written p :=
  fun hk => absurd hk h

theorem IsWritten.cons (h : IsWritten stem (i + 1) written p) (q : PlacedToken × List Char) :
    IsWritten stem i (q :: written) p := by
  intro hk j hj
  obtain ⟨k, rfl, hp⟩ := h hk j hj
  exact ⟨k + 1, by omega, by simpa using hp⟩

theorem token_mem_of_mem_placeTokens {ls : List Lexeme} (h : p ∈ placeTokens start ls) :
    .token p.token ∈ ls := by
  induction ls generalizing start with
  | nil => simp [placeTokens] at h
  | cons l ls ih =>
    cases l with
    | ignored text => exact List.mem_cons_of_mem _ (ih h)
    | token t =>
      rw [placeTokens, List.mem_cons] at h
      obtain rfl | h := h
      · exact List.mem_cons_self
      · exact List.mem_cons_of_mem _ (ih h)

theorem forall_mem_placeTokens_cons {q : PlacedToken → Prop} {l : Lexeme} {ls : List Lexeme}
    (hl : ∀ t, l = .token t → q ⟨t, start, start + byteSize t.text⟩)
    (hls : ∀ p ∈ placeTokens (start + byteSize l.text) ls, q p) :
    ∀ p ∈ placeTokens start (l :: ls), q p := by
  cases l with
  | ignored text => exact hls
  | token t => exact List.forall_mem_cons.mpr ⟨hl t rfl, hls⟩

/-- Whether something holds of all tokens behind the name characters that a text begins with. -/
def HoldsBehindName (q : PlacedToken → Prop) (start : Nat) (text : List Char) : Prop :=
  ∀ p ∈ placeTokens (start + byteSize (text.takeWhile isNameChar))
    (lexemes (text.dropWhile isNameChar)), q p

theorem HoldsBehindName.append {q : PlacedToken → Prop} {front text : List Char}
    (h : HoldsBehindName q (start + byteSize front) text)
    (hfront : ∀ c ∈ front, isNameChar c = true) : HoldsBehindName q start (front ++ text) := by
  rwa [HoldsBehindName, takeWhile_name_append hfront, dropWhile_name_append hfront,
    byteSize_append, ← Nat.add_assoc]

/-- In front of no name character there is nothing to pass. -/
theorem holdsBehindName_of_takeWhile {q : PlacedToken → Prop} {text : List Char}
    (hnil : text.takeWhile isNameChar = [] ∧ text.dropWhile isNameChar = text)
    (h : ∀ p ∈ placeTokens start (lexemes text), q p) : HoldsBehindName q start text := by
  rwa [HoldsBehindName, hnil.1, hnil.2]

/-- A name takes the name characters behind it with it, and the tokens behind them follow. -/
theorem forall_mem_placeTokens_name {q : PlacedToken → Prop} {name rest : List Char}
    (hn : isName name = true)
    (hname : q ⟨⟨.name, name ++ rest.takeWhile isNameChar⟩, start,
      start + byteSize (name ++ rest.takeWhile isNameChar)⟩)
    (hrest : HoldsBehindName q (start + byteSize name) rest) :
    ∀ p ∈ placeTokens start (lexemes (name ++ rest)), q p := by
  rw [lexemes_name_append hn]
  refine forall_mem_placeTokens_cons ?_ ?_
  · rintro t ⟨⟩
    exact hname
  · rwa [Lexeme.text, byteSize_append, ← Nat.add_assoc]

/-- Every token of a masked text, and every one behind the name characters that it begins
with, is made like a placeholder only in the place of one. -/
theorem isWritten_of_mem_textFrom {segments : List Segment} (hstem : IsStem stem)
    (h : IsMasking segments) (hf : HoldsFloats segments)
    (hkept : ∀ t, .kept (.token t) ∈ segments → placeholderIndex? stem t.text = none) :
    (∀ p ∈ placeTokens start (lexemes (textFrom stem i segments)),
      IsWritten stem i (placedLiterals stem start i segments) p) ∧
    HoldsBehindName (IsWritten stem i (placedLiterals stem start i segments)) start
      (textFrom stem i segments) := by
  induction hf generalizing start i with
  | nil => simp [HoldsBehindName, textFrom, lexemes, placeTokens]
  | @kept l rest hf _ ih =>
    obtain ⟨ihAll, ihBehind⟩ := @ih (start + byteSize l.text) i h.of_cons
      fun t ht => hkept t (List.mem_cons_of_mem _ ht)
    rw [textFrom, placedLiterals]
    have hall : ∀ p ∈ placeTokens start (lexemes (l.text ++ textFrom stem i rest)),
        IsWritten stem i (placedLiterals stem (start + byteSize l.text) i rest) p := by
      by_cases hk : l.kind? = some .name
      · obtain ⟨name, rfl⟩ := Lexeme.exists_name_of_kind? hk
        have hn : isName name = true := h.forms ⟨.name, name⟩ (by simp [Segment.lexemes])
        refine forall_mem_placeTokens_name hn (isWritten_of_none ?_) ihBehind
        obtain hnil | hnew := placeholderIndex?_name_textFrom (i := i) hstem hn h
        · rw [hnil, List.append_nil]
          exact hkept ⟨.name, name⟩ List.mem_cons_self
        · exact hnew
      · rw [lexemes_kept_append hstem h hk]
        refine forall_mem_placeTokens_cons ?_ ihAll
        rintro t rfl
        exact isWritten_of_kind_ne (by simpa [Lexeme.kind?, Lexeme.token?] using hk)
    refine ⟨hall, ?_⟩
    by_cases hhead : ∃ c ∈ l.text.head?, isNameChar c = true
    · exact ihBehind.append (h.endsBefore.of_isNameChar hf hhead).2
    · exact holdsBehindName_of_takeWhile
        (takeWhile_append_eq_nil _ h.endsBefore.text_ne_nil hhead) hall
  | @held run rest _ ih =>
    obtain ⟨-, ihBehind⟩ := @ih (start + byteSize (placeholder stem i)) (i + 1) h.of_cons
      fun t ht => hkept t (List.mem_cons_of_mem _ ht)
    have hn := hstem.isName_placeholder i
    have hbehind : HoldsBehindName
        (IsWritten stem i (placedLiterals stem start i (.held run :: rest)))
        (start + byteSize (placeholder stem i)) (textFrom stem (i + 1) rest) :=
      fun p hp => (ihBehind p hp).cons _
    rw [textFrom]
    refine ⟨forall_mem_placeTokens_name hn ?_ hbehind,
      hbehind.append (forall_isNameChar_of_isName hn)⟩
    rintro - j hj
    obtain ⟨hnil, rfl⟩ := eq_nil_of_placeholder_append hj
    exact ⟨0, rfl, by simp [placedLiterals, hnil, placeholderToken]⟩
  | unclosed ls =>
    have hcut := lexemes_flatMap_text h.cut
    rw [flatMap_lexemes_map_kept] at hcut
    have hall : ∀ p ∈ placeTokens start (lexemes (textFrom stem i ((brace '{' :: ls).map .kept))),
        IsWritten stem i (placedLiterals stem start i ((brace '{' :: ls).map .kept)) p := by
      rw [textFrom_map_kept, hcut]
      intro p hp
      exact isWritten_of_none
        (hkept p.token (List.mem_map_of_mem (token_mem_of_mem_placeTokens hp)))
    exact ⟨hall, holdsBehindName_of_takeWhile (takeWhile_unclosed ls) hall⟩

end Written

/-- **Placeholders and names.** For every document,

* the search for a stem ends within as many steps as the document has characters: each shorter
  stem occurs in the document, and the one that it ends with does not;
* no token of the document stands for a literal;
* a name of the masked text stands for a literal exactly if it is, from its first to its last
  byte, a placeholder that masking has written there, and the literal is the one that has been
  held back there. Whatever has grown together with a placeholder stands for none. -/
theorem literalOf?_eq_some_iff (document : List Char) :
    (∃ k ≤ document.length,
      (mask document).stem = "__preserved_literal_".toList ++ List.replicate k '_' ∧
      ∀ j < k, "__preserved_literal_".toList ++ List.replicate j '_' <:+: document) ∧
    ¬ (mask document).stem <:+: document ∧
    (∀ t ∈ tokens document, (mask document).literalOf? t.text = none) ∧
    ∀ p ∈ placeTokens 0 (lexemes (mask document).text), p.token.kind = .name → ∀ literal,
      (mask document).literalOf? p.token.text = some literal ↔
        (p, literal) ∈ placedLiterals (mask document).stem 0 0 (mask document).segments := by
  have hkept : ∀ t ∈ tokens document, placeholderIndex? (mask document).stem t.text = none :=
    fun t ht => placeholderIndex?_of_mem_tokens ht
  have hliterals := map_snd_placedLiterals (mask document) 0 0
  refine ⟨extendUntilNew_eq document document.length _, ?_,
    fun t ht => by simp [Masked.literalOf?, literalNamed?, hkept t ht], ?_⟩
  · rw [← occursIn_iff]
    simp [mask, occursIn_placeholderStem]
  · intro p hp hk literal
    constructor
    · intro h
      obtain ⟨j, hj, hliteral⟩ := Option.bind_eq_some_iff.mp h
      have hwritten := (isWritten_of_mem_textFrom (isStem_placeholderStem document)
        (isMasking_segments document) (isSegmentation_mask document).holdsFloats
        fun t ht => hkept t (mem_tokens_of_kept_segment ht)).1 p hp
      obtain ⟨k, rfl, hplaced⟩ := hwritten hk j hj
      rw [← hliterals, Nat.zero_add] at hliteral
      obtain ⟨a, ha, rfl⟩ := Option.map_eq_some_iff.mp (List.getElem?_map ▸ hplaced)
      obtain ⟨b, hb, rfl⟩ := Option.map_eq_some_iff.mp (List.getElem?_map ▸ hliteral)
      obtain rfl := Option.some.inj (ha.symm.trans hb)
      exact List.mem_of_getElem? ha
    · intro h
      obtain ⟨k, hwritten⟩ := List.mem_iff_getElem?.mp h
      have htoken := token_of_getElem?_placedLiterals hwritten
      have htext : p.token.text = placeholder (mask document).stem k := by
        simp_all [placeholderToken]
      rw [htext, Masked.literalOf?, literalNamed?_placeholder, ← hliterals, List.getElem?_map,
        hwritten]
      rfl

end QueryDoc.Source
