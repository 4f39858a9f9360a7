import QueryDoc.Proofs.Bytes
import QueryDoc.Proofs.Source.Cut

/-!
# QueryDoc.Proofs.Source.Bytes

Source text cut into tokens byte by byte. Numbers, names, strings and comments are passed
without a look at the characters: a backslash in a string skips one byte, even if that is the
first one of several, and only what is no token of a document is taken out as a character, for
which a character has to begin there (`splitBytes?`).

`byteTokens?_utf8Bytes` says that one always does, and that the bytes are cut where the
characters are.
-/

namespace QueryDoc.Source

/-! ## Passing bytes

Each function gives the bytes behind what it passes. -/

/-- Skip digits. -/
def skipDigits (bs : List UInt8) : List UInt8 := bs.dropWhile (byteIs Char.isDigit)

/-- Skip a sign, if one comes next. -/
def skipSign (bs : List UInt8) : List UInt8 :=
  if startsWith ['+'] bs || startsWith ['-'] bs then bs.drop 1 else bs

/-- A point with the digits behind it, and whether there is one. -/
def skipFraction (bs : List UInt8) : Bool × List UInt8 :=
  if startsWith ['.'] bs && !startsWith ['.', '.', '.'] bs then (true, skipDigits (bs.drop 1))
  else (false, bs)

/-- An exponent, and whether there is one. -/
def skipExponent (bs : List UInt8) : Bool × List UInt8 :=
  if startsWith ['e'] bs || startsWith ['E'] bs then (true, skipDigits (skipSign (bs.drop 1)))
  else (false, bs)

/-- What follows the first digit or the minus sign of a number. -/
def skipNumber (bs : List UInt8) : TokenKind × List UInt8 :=
  let (point, bs) := skipFraction (skipDigits bs)
  let (exponent, bs) := skipExponent bs
  (if point || exponent then .float else .int, bs)

/-- What follows the opening quote of a string. -/
def skipString : List UInt8 → List UInt8
  | [] => []
  | b :: bs =>
    if b = '\\'.toUInt8 then skipString (bs.drop 1)
    else if b = '"'.toUInt8 then bs
    else if byteIs isLineEnd b then b :: bs
    else skipString bs
termination_by bs => bs.length
decreasing_by all_goals simp +arith

/-- What follows the opening quotes of a block string. -/
def skipBlockString : List UInt8 → List UInt8
  | [] => []
  | b :: bs =>
    if startsWith ['\\', '"', '"', '"'] (b :: bs) then skipBlockString (bs.drop 3)
    else if startsWith ['"', '"', '"'] (b :: bs) then bs.drop 2
    else skipBlockString bs
termination_by bs => bs.length
decreasing_by all_goals simp +arith

/-! ## Tokens -/

/-- What begins with the byte `b` in front of `bs`: the kind of a token, or nothing if it
carries no meaning, and the bytes behind it. There is none if a character would have to begin
there and does not. -/
def splitBytes? (b : UInt8) (bs : List UInt8) : Option (Option TokenKind × List UInt8) :=
  if byteIs isIgnorable b then some (none, bs)
  else if b = '#'.toUInt8 then some (none, bs.dropWhile fun b => !byteIs isLineEnd b)
  else if b = '"'.toUInt8 then
    some (some .string,
      if startsWith ['"', '"'] bs then skipBlockString (bs.drop 2) else skipString bs)
  else if startsWith ['.', '.', '.'] (b :: bs) then some (some .spread, bs.drop 2)
  else if b = '-'.toUInt8 || byteIs Char.isDigit b then
    some (some (skipNumber bs).1, (skipNumber bs).2)
  else if byteIs isNameStart b then some (some .name, bs.dropWhile (byteIs isNameChar))
  else if byteIs isMark b then some (some (.punctuator (Char.ofUInt8 b)), bs)
  else
    ((b :: bs).toByteArray.utf8DecodeChar? 0).map fun c =>
      (if c = '\ufeff' then none else some .unknown, (b :: bs).drop c.utf8Size)

/-- Skipping digits never goes back. -/
theorem length_skipDigits_le (bs : List UInt8) : (skipDigits bs).length ≤ bs.length :=
  (List.dropWhile_sublist _).length_le

/-- Skipping a number never goes back. -/
theorem length_skipNumber_le (bs : List UInt8) : (skipNumber bs).2.length ≤ bs.length := by
  have hsign (bs : List UInt8) : (skipSign bs).length ≤ bs.length := by
    unfold skipSign
    split <;> simp
  have hfraction (bs : List UInt8) : (skipFraction bs).2.length ≤ bs.length := by
    unfold skipFraction
    split
    · exact (length_skipDigits_le _).trans (by simp)
    · exact le_rfl
  have hexponent (bs : List UInt8) : (skipExponent bs).2.length ≤ bs.length := by
    unfold skipExponent
    split
    · exact (length_skipDigits_le _).trans ((hsign _).trans (by simp))
    · exact le_rfl
  exact (hexponent _).trans ((hfraction _).trans (length_skipDigits_le bs))

/-- Skipping a string never goes back. -/
theorem length_skipString_le (bs : List UInt8) : (skipString bs).length ≤ bs.length := by
  fun_induction skipString bs <;> simp_all <;> omega

/-- Skipping a block string never goes back. -/
theorem length_skipBlockString_le (bs : List UInt8) : (skipBlockString bs).length ≤ bs.length := by
  fun_induction skipBlockString bs <;> simp_all <;> omega

/-- Whatever begins with a byte takes that byte at least. -/
theorem length_splitBytes?_lt {b : UInt8} {bs rest : List UInt8} {kind : Option TokenKind}
    (h : splitBytes? b bs = some (kind, rest)) : rest.length < (b :: bs).length := by
  rw [List.length_cons, Nat.lt_succ_iff]
  unfold splitBytes? at h
  split at h
  · cases h
    exact le_rfl
  split at h
  · cases h
    exact (List.dropWhile_sublist _).length_le
  split at h
  · cases h
    split
    · exact (length_skipBlockString_le _).trans (by simp)
    · exact length_skipString_le bs
  split at h
  · cases h
    simp
  split at h
  · cases h
    exact length_skipNumber_le bs
  split at h
  · cases h
    exact (List.dropWhile_sublist _).length_le
  split at h
  · cases h
    exact le_rfl
  · obtain ⟨c, -, heq⟩ := Option.map_eq_some_iff.mp h
    cases heq
    have hpos := c.utf8Size_pos
    simp
    omega

/-- A token of this kind from one byte up to, but without, another one. -/
structure ByteToken where
  kind : TokenKind
  start : Nat
  stop : Nat
deriving DecidableEq, Repr

/-- The tokens of bytes of which the first one stands at `start`. -/
def byteTokens? (start : Nat) : List UInt8 → Option (List ByteToken)
  | [] => some []
  | b :: bs =>
    match _ : splitBytes? b bs with
    | none => none
    | some (kind, rest) =>
      let stop := start + ((b :: bs).length - rest.length)
      (byteTokens? stop rest).map fun ts =>
        (kind.map fun kind => ⟨kind, start, stop⟩).toList ++ ts
termination_by bs => bs.length
decreasing_by exact length_splitBytes?_lt ‹_›

/-! ## Bytes of characters -/

theorem toNat_lt_of_isDigit {c : Char} (h : c.isDigit = true) : c.toNat < 128 := by
  simp only [Char.isDigit, Bool.and_eq_true, decide_eq_true_eq, UInt32.le_iff_toNat_le] at h
  exact Nat.lt_of_le_of_lt h.2 (by decide)

theorem toNat_lt_of_isNameChar {c : Char} (h : isNameChar c = true) : c.toNat < 128 := by
  simp only [isNameChar, Char.isAlphanum, Char.isAlpha, Char.isUpper, Char.isLower,
    Bool.or_eq_true, beq_iff_eq, Bool.and_eq_true, decide_eq_true_eq, UInt32.le_iff_toNat_le,
    ge_iff_le] at h
  rcases h with rfl | (h | h) | h
  · decide
  · exact Nat.lt_of_le_of_lt h.2 (by decide)
  · exact Nat.lt_of_le_of_lt h.2 (by decide)
  · exact toNat_lt_of_isDigit h

theorem toNat_lt_of_isLineEnd {c : Char} (h : isLineEnd c = true) : c.toNat < 128 := by
  simp only [isLineEnd, Bool.or_eq_true, beq_iff_eq] at h
  rcases h with rfl | rfl <;> decide

theorem toNat_lt_of_isMark {c : Char} (h : isMark c = true) : c.toNat < 128 := by
  have hall : ∀ d ∈ "!$&():=@[]\x7b|\x7d".toList, d.toNat < 128 := by simp
  exact hall c (List.contains_iff_mem.mp h)

/-- Of the characters without meaning only the byte order mark is no ASCII character. -/
theorem isIgnorable_of_not_ascii {c : Char} (h : ¬ c.toNat < 128) :
    isIgnorable c = (c == '\ufeff') := by
  have hne : ∀ d : Char, d.toNat < 128 → (c == d) = false := fun d hd =>
    beq_eq_false_iff_ne.mpr fun heq => h (heq ▸ hd)
  simp [isIgnorable, hne ' ' (by decide), hne '\t' (by decide), hne '\n' (by decide),
    hne '\r' (by decide), hne ',' (by decide)]

/-- Bytes and characters agree on where digits end. -/
theorem skipDigits_bytesOf (cs : List Char) : skipDigits (bytesOf cs) = bytesOf (spanDigits cs).2 :=
  dropWhile_byteIs (fun _ => toNat_lt_of_isDigit) cs

/-- Behind an ASCII character that is passed stand the bytes behind it. -/
theorem drop_bytesOf (front : List Char) (hf : ∀ c ∈ front, c.toNat < 128) (cs : List Char) :
    (bytesOf (front ++ cs)).drop front.length = bytesOf cs := by
  induction front with
  | nil => rfl
  | cons c front ih =>
    obtain ⟨hc, hf⟩ := List.forall_mem_cons.mp hf
    rw [List.cons_append, bytesOf_cons, utf8EncodeChar_ascii hc]
    exact ih hf

/-! ## Bytes of numbers -/

/-- The first byte decides whether an ASCII character comes first. -/
theorem startsWith_one_iff {c : Char} (hc : c.toNat < 128) (cs : List Char) :
    startsWith [c] (bytesOf cs) = true ↔ cs.head? = some c := by
  rw [startsWith_bytesOf (List.forall_mem_singleton.mpr hc), List.isPrefixOf_iff_prefix,
    List.singleton_prefix_iff_head?_eq_some]

theorem skipSign_bytesOf (cs : List Char) : skipSign (bytesOf cs) = bytesOf (splitSign cs).2 := by
  have hbytes : skipSign (bytesOf cs) =
      if cs.head? = some '+' ∨ cs.head? = some '-' then (bytesOf cs).drop 1 else bytesOf cs := by
    simp only [skipSign, Bool.or_eq_true, startsWith_one_iff (c := '+') (by decide),
      startsWith_one_iff (c := '-') (by decide)]
  rw [hbytes]
  split
  · next h =>
    rcases h with h | h
    · obtain ⟨t, rfl⟩ := List.head?_eq_some_iff.mp h
      exact drop_bytesOf ['+'] (by simp) t
    · obtain ⟨t, rfl⟩ := List.head?_eq_some_iff.mp h
      exact drop_bytesOf ['-'] (by simp) t
  · next h =>
    obtain ⟨hplus, hminus⟩ := not_or.mp h
    unfold splitSign
    split
    · exact absurd rfl hplus
    · rw [splitMinus_eq_nil hminus]

/-- Bytes and characters agree on where a fraction ends, and on whether there is one. -/
theorem skipFraction_bytesOf (cs : List Char) :
    skipFraction (bytesOf cs) = (!(splitFraction cs).1.isEmpty, bytesOf (splitFraction cs).2) := by
  have hdots : startsWith ['.', '.', '.'] (bytesOf cs) = true ↔ ['.', '.', '.'] <+: cs := by
    rw [startsWith_bytesOf (by simp), List.isPrefixOf_iff_prefix]
  unfold skipFraction
  by_cases hpoint : cs.head? = some '.'
  · obtain ⟨t, rfl⟩ := List.head?_eq_some_iff.mp hpoint
    rw [(startsWith_one_iff (by decide) _).mpr hpoint, Bool.true_and]
    by_cases hprefix : ['.', '.', '.'] <+: '.' :: t
    · obtain ⟨u, hu⟩ := hprefix
      rw [hdots.mpr ⟨u, hu⟩, ← hu]
      rfl
    · have htwo : ¬ ['.', '.'] <+: t := fun h => hprefix (List.cons_prefix_cons.mpr ⟨rfl, h⟩)
      have hdrop := drop_bytesOf ['.'] (by simp) t
      rw [Bool.eq_false_of_not_eq_true (hdots.not.mpr hprefix), splitFraction_point htwo]
      simp only [Bool.not_false, if_true, List.isEmpty_cons, Prod.mk.injEq, true_and]
      rw [← skipDigits_bytesOf, ← hdrop]
      rfl
  · rw [Bool.eq_false_of_not_eq_true ((startsWith_one_iff (by decide) cs).not.mpr hpoint),
      splitFraction_eq_nil hpoint]
    rfl

/-- Bytes and characters agree on where an exponent ends, and on whether there is one. -/
theorem skipExponent_bytesOf (cs : List Char) :
    skipExponent (bytesOf cs) = (!(splitExponent cs).1.isEmpty, bytesOf (splitExponent cs).2) := by
  have hbytes : skipExponent (bytesOf cs) =
      if cs.head? = some 'e' ∨ cs.head? = some 'E' then
        (true, skipDigits (skipSign ((bytesOf cs).drop 1)))
      else (false, bytesOf cs) := by
    simp only [skipExponent, Bool.or_eq_true, startsWith_one_iff (c := 'e') (by decide),
      startsWith_one_iff (c := 'E') (by decide)]
  rw [hbytes]
  by_cases h : cs.head? = some 'e' ∨ cs.head? = some 'E'
  · obtain ⟨c, hc, t, rfl⟩ : ∃ c, (c = 'e' ∨ c = 'E') ∧ ∃ t, cs = c :: t := by
      rcases h with h | h
      · exact ⟨'e', .inl rfl, List.head?_eq_some_iff.mp h⟩
      · exact ⟨'E', .inr rfl, List.head?_eq_some_iff.mp h⟩
    have hdrop : (bytesOf (c :: t)).drop 1 = bytesOf t :=
      drop_bytesOf [c] (by rcases hc with rfl | rfl <;> simp) t
    rw [if_pos h, hdrop, skipSign_bytesOf, skipDigits_bytesOf, splitExponent_mark hc]
    rfl
  · rw [if_neg h, splitExponent_eq_nil (not_or.mp h).1 (not_or.mp h).2]
    rfl

/-- Behind the first character of a number stand its digits and whatever else belongs to it. -/
theorem skipNumber_bytesOf {c : Char} (hc : c = '-' ∨ c.isDigit = true) (cs : List Char) :
    skipNumber (bytesOf cs) =
      ((splitNumber (c :: cs)).1.kind, bytesOf (splitNumber (c :: cs)).2) := by
  have hwhole : (spanDigits (splitMinus (c :: cs)).2).2 = (spanDigits cs).2 := by
    by_cases hminus : c = '-'
    · rw [hminus]
      rfl
    · rw [splitMinus_eq_nil (by simpa using hminus)]
      exact List.dropWhile_cons_of_pos (hc.resolve_left hminus)
  simp only [skipNumber, splitNumber, NumberText.kind, skipDigits_bytesOf, skipFraction_bytesOf,
    skipExponent_bytesOf, hwhole, Prod.mk.injEq, and_true]
  generalize (splitFraction (spanDigits cs).2).1 = fraction
  generalize (splitExponent (splitFraction (spanDigits cs).2).2).1 = exponent
  cases fraction <;> cases exponent <;> simp

/-! ## Bytes of strings -/

/-- The bytes of a character beyond ASCII are passed one by one in a string. -/
theorem skipString_append {bs : List UInt8} (hbs : ∀ b ∈ bs, 128 ≤ b.toNat) (rest : List UInt8) :
    skipString (bs ++ rest) = skipString rest := by
  induction bs with
  | nil => rfl
  | cons b bs ih =>
    obtain ⟨hb, hbs⟩ := List.forall_mem_cons.mp hbs
    rw [List.cons_append, skipString, if_neg (ne_toUInt8_of_le (by decide) hb),
      if_neg (ne_toUInt8_of_le (by decide) hb), byteIs_of_le isLineEnd hb,
      if_neg Bool.false_ne_true, ih hbs]

/-- Bytes and characters agree on where a string ends. -/
theorem skipString_bytesOf (cs : List Char) :
    skipString (bytesOf cs) = bytesOf (splitString cs).2 := by
  have hne {c d : Char} (hc : c.toNat < 128) (hd : d.toNat < 128) (h : c ≠ d) :
      c.toUInt8 ≠ d.toUInt8 := (toUInt8_eq_iff hc hd).not.mpr h
  fun_induction splitString cs with
  | case1 => rw [bytesOf_nil, skipString]
  | case2 c cs taken rest hs ih =>
    rw [hs] at ih
    rw [bytesOf_cons, utf8EncodeChar_ascii (by decide), List.singleton_append, skipString,
      if_pos rfl, ← ih, bytesOf_cons]
    -- Whatever else there is of the character behind the backslash is passed as well.
    obtain ⟨-, hbytes⟩ | ⟨b, bs, hbytes, -, hle⟩ := utf8EncodeChar_cases c
    · rw [hbytes]
      rfl
    · rw [hbytes, List.cons_append, List.drop_succ_cons, List.drop_zero]
      exact skipString_append (List.forall_mem_cons.mp hle).2 _
  | case3 cs =>
    rw [bytesOf_cons, utf8EncodeChar_ascii (by decide), List.singleton_append, skipString,
      if_neg (hne (by decide) (by decide) (by decide)), if_pos rfl]
  | case4 c cs hesc hquote hend =>
    have hc := toNat_lt_of_isLineEnd hend
    have hback : c ≠ '\\' := by
      rintro rfl
      exact absurd hend (by decide)
    rw [bytesOf_cons, utf8EncodeChar_ascii hc, List.singleton_append, skipString,
      if_neg (hne hc (by decide) hback), if_neg (hne hc (by decide) hquote),
      byteIs_toUInt8 _ hc, if_pos hend]
  | case5 c cs hesc hquote hend taken rest hs ih =>
    rw [hs] at ih
    rw [← ih, bytesOf_cons]
    obtain ⟨hc, hbytes⟩ | ⟨b, bs, hbytes, -, hle⟩ := utf8EncodeChar_cases c
    · rw [hbytes, List.singleton_append, skipString]
      by_cases hback : c = '\\'
      · -- A backslash that takes nothing with it is the last character.
        subst hback
        cases cs with
        | nil => rw [if_pos rfl, bytesOf_nil, List.drop_nil]
        | cons d cs => exact absurd rfl (hesc d cs rfl)
      · rw [if_neg (hne hc (by decide) hback), if_neg (hne hc (by decide) hquote),
          byteIs_toUInt8 _ hc, if_neg hend]
    · rw [hbytes]
      exact skipString_append hle _

theorem startsWith_of_le {c : Char} (hc : c.toNat < 128) (front : List Char) {b : UInt8}
    (hb : 128 ≤ b.toNat) (bs : List UInt8) : startsWith (c :: front) (b :: bs) = false := by
  have hne : (c.toUInt8 == b) = false := beq_eq_false_iff_ne.mpr (ne_toUInt8_of_le hc hb).symm
  rw [startsWith, bytesOf_cons, utf8EncodeChar_ascii hc, List.singleton_append, List.isPrefixOf,
    hne, Bool.false_and]

/-- Bytes of longer characters end no block string. -/
theorem skipBlockString_append {bs : List UInt8} (hbs : ∀ b ∈ bs, 128 ≤ b.toNat)
    (rest : List UInt8) : skipBlockString (bs ++ rest) = skipBlockString rest := by
  induction bs with
  | nil => rfl
  | cons b bs ih =>
    obtain ⟨hb, hbs⟩ := List.forall_mem_cons.mp hbs
    rw [List.cons_append, skipBlockString, startsWith_of_le (by decide) _ hb,
      startsWith_of_le (by decide) _ hb, if_neg Bool.false_ne_true, if_neg Bool.false_ne_true,
      ih hbs]

/-- Bytes and characters agree on where a block string ends. -/
theorem skipBlockString_bytesOf (cs : List Char) :
    skipBlockString (bytesOf cs) = bytesOf (splitBlockString cs).2 := by
  have hquotes (cs : List Char) :
      startsWith ['"', '"', '"'] (bytesOf cs) = true ↔ ['"', '"', '"'] <+: cs := by
    rw [startsWith_bytesOf (by simp), List.isPrefixOf_iff_prefix]
  have hescaped (cs : List Char) :
      startsWith ['\\', '"', '"', '"'] (bytesOf cs) = true ↔ ['\\', '"', '"', '"'] <+: cs := by
    rw [startsWith_bytesOf (by simp), List.isPrefixOf_iff_prefix]
  -- One step, where the first character is an ASCII character.
  have hstep {c : Char} (hc : c.toNat < 128) (cs : List Char) :
      skipBlockString (bytesOf (c :: cs)) =
        if ['\\', '"', '"', '"'] <+: c :: cs then skipBlockString ((bytesOf cs).drop 3)
        else if ['"', '"', '"'] <+: c :: cs then (bytesOf cs).drop 2
        else skipBlockString (bytesOf cs) := by
    simp only [← hquotes, ← hescaped]
    rw [bytesOf_cons, utf8EncodeChar_ascii hc, List.singleton_append, skipBlockString]
  fun_induction splitBlockString cs with
  | case1 => rw [bytesOf_nil, skipBlockString]
  | case2 cs taken rest hs ih =>
    rw [hs] at ih
    rw [hstep (by decide), if_pos ⟨cs, rfl⟩, ← ih]
    exact congrArg skipBlockString (drop_bytesOf ['"', '"', '"'] (by simp) cs)
  | case3 cs =>
    rw [hstep (by decide), if_neg (by simp), if_pos ⟨cs, rfl⟩]
    exact drop_bytesOf ['"', '"'] (by simp) cs
  | case4 c cs hesc hquote taken rest hs ih =>
    rw [hs] at ih
    obtain ⟨hc, -⟩ | ⟨b, bs, hbytes, -, hle⟩ := utf8EncodeChar_cases c
    · rw [hstep hc, if_neg, if_neg, ih]
      · rintro ⟨t, ht⟩
        obtain ⟨rfl, rfl⟩ := List.cons.inj ht
        exact hquote t rfl rfl
      · rintro ⟨t, ht⟩
        obtain ⟨rfl, rfl⟩ := List.cons.inj ht
        exact hesc t rfl rfl
    · rw [bytesOf_cons, hbytes, ← ih]
      exact skipBlockString_append hle _

/-! ## Agreement -/

/-- The character in front of a text is taken out as it is. -/
theorem decode_bytesOf {c : Char} {cs : List Char} {b : UInt8} {bs : List UInt8}
    (h : bytesOf (c :: cs) = b :: bs) :
    (b :: bs).toByteArray.utf8DecodeChar? 0 = some c ∧
      (b :: bs).drop c.utf8Size = bytesOf cs := by
  rw [← h]
  refine ⟨List.utf8DecodeChar?_utf8Encode_cons, ?_⟩
  rw [bytesOf_cons, ← String.length_utf8EncodeChar, List.drop_left]

/-- Outside ASCII only the byte order mark is ignored. -/
theorem splitLexeme_of_not_ascii {c : Char} (h : ¬ c.toNat < 128) (cs : List Char) :
    splitLexeme c cs = (if c = '\ufeff' then .ignored [c] else .token ⟨.unknown, [c]⟩, cs) := by
  have hne (d : Char) (hd : d.toNat < 128) : c ≠ d := by
    rintro rfl
    exact h hd
  have hblank := isIgnorable_of_not_ascii h
  by_cases hbom : c = '\ufeff'
  · rw [if_pos hbom, splitLexeme_blank (by rw [hblank, hbom]; rfl)]
  · rw [if_neg hbom]
    refine splitLexeme_stray ⟨by simp [hblank, hbom], hne '#' (by decide), hne '"' (by decide),
      hne '.' (by decide), ?_, ?_, ?_⟩ cs
    · exact not_or.mpr ⟨hne '-' (by decide), fun hc => h (toNat_lt_of_isDigit hc)⟩
    · exact Bool.eq_false_iff.mpr fun hc =>
        h (toNat_lt_of_isNameChar (isNameChar_of_isNameStart hc))
    · exact Bool.eq_false_iff.mpr fun hc => h (toNat_lt_of_isMark hc)

/-- At a byte of a longer character, the whole character is decoded. -/
theorem splitBytes?_of_le {b : UInt8} (hb : 128 ≤ b.toNat) (bs : List UInt8) :
    splitBytes? b bs = ((b :: bs).toByteArray.utf8DecodeChar? 0).map fun c =>
      (if c = '\ufeff' then none else some .unknown, (b :: bs).drop c.utf8Size) := by
  have hne (d : Char) (hd : d.toNat < 128) : b ≠ d.toUInt8 := ne_toUInt8_of_le hd hb
  unfold splitBytes?
  simp only [byteIs_of_le _ hb, hne '#' (by decide), hne '"' (by decide), hne '-' (by decide),
    startsWith_of_le (c := '.') (by decide) _ hb, Bool.false_eq_true, if_false, decide_false,
    Bool.or_self]

theorem splitBytes?_quote (cs : List Char) :
    splitBytes? '"'.toUInt8 (bytesOf cs) =
      some ((splitLexeme '"' cs).1.kind?, bytesOf (splitLexeme '"' cs).2) := by
  have hquotes : startsWith ['"', '"'] (bytesOf cs) = true ↔ ['"', '"'] <+: cs := by
    rw [startsWith_bytesOf (by simp), List.isPrefixOf_iff_prefix]
  have hstring : splitBytes? '"'.toUInt8 (bytesOf cs) = some (some .string,
      if startsWith ['"', '"'] (bytesOf cs) then skipBlockString ((bytesOf cs).drop 2)
      else skipString (bytesOf cs)) := by
    rw [splitBytes?, if_neg (by decide), if_neg (by decide), if_pos rfl]
  rw [hstring]
  by_cases hblock : ['"', '"'] <+: cs
  · obtain ⟨t, rfl⟩ := hblock
    have ht : (bytesOf (['"', '"'] ++ t)).drop 2 = bytesOf t := drop_bytesOf ['"', '"'] (by simp) t
    rw [if_pos (hquotes.mpr ⟨t, rfl⟩), ht, skipBlockString_bytesOf]
    rfl
  · rw [if_neg (hquotes.not.mpr hblock), skipString_bytesOf, splitLexeme_string hblock]
    rfl

theorem splitBytes?_dot (cs : List Char) :
    splitBytes? '.'.toUInt8 (bytesOf cs) =
      some ((splitLexeme '.' cs).1.kind?, bytesOf (splitLexeme '.' cs).2) := by
  have hbytes : bytesOf ('.' :: cs) = '.'.toUInt8 :: bytesOf cs := by
    rw [bytesOf_cons, utf8EncodeChar_ascii (by decide), List.singleton_append]
  have hdots : startsWith ['.', '.', '.'] ('.'.toUInt8 :: bytesOf cs) = true ↔
      ['.', '.', '.'] <+: '.' :: cs := by
    rw [← hbytes, startsWith_bytesOf (by simp), List.isPrefixOf_iff_prefix]
  obtain ⟨hdecode, hdrop⟩ := decode_bytesOf hbytes
  have hstep : splitBytes? '.'.toUInt8 (bytesOf cs) =
      if startsWith ['.', '.', '.'] ('.'.toUInt8 :: bytesOf cs) then
        some (some .spread, (bytesOf cs).drop 2)
      else some (some .unknown, bytesOf cs) := by
    unfold splitBytes?
    rw [if_neg (by decide), if_neg (by decide), if_neg (by decide)]
    refine if_congr Iff.rfl rfl ?_
    rw [if_neg (by decide), if_neg (by decide), if_neg (by decide), hdecode, Option.map_some, hdrop]
    rfl
  rw [hstep]
  by_cases hspread : ['.', '.'] <+: cs
  · obtain ⟨t, rfl⟩ := hspread
    have ht : (bytesOf (['.', '.'] ++ t)).drop 2 = bytesOf t := drop_bytesOf ['.', '.'] (by simp) t
    rw [if_pos (hdots.mpr ⟨t, rfl⟩), ht]
    rfl
  · rw [if_neg (hdots.not.mpr fun h => hspread (List.cons_prefix_cons.mp h).2),
      splitLexeme_dot hspread]
    rfl

/-- At an ASCII character, bytes and characters agree on the lexeme. -/
theorem splitBytes?_ascii {c : Char} (hc : c.toNat < 128) (cs : List Char) :
    splitBytes? c.toUInt8 (bytesOf cs) =
      some ((splitLexeme c cs).1.kind?, bytesOf (splitLexeme c cs).2) := by
  by_cases hquote : c = '"'
  · exact hquote ▸ splitBytes?_quote cs
  by_cases hdot : c = '.'
  · exact hdot ▸ splitBytes?_dot cs
  have hbytes : bytesOf (c :: cs) = c.toUInt8 :: bytesOf cs := by
    rw [bytesOf_cons, utf8EncodeChar_ascii hc, List.singleton_append]
  obtain ⟨hdecode, hdrop⟩ := decode_bytesOf hbytes
  have hbyte (d : Char) (hd : d.toNat < 128) : c.toUInt8 = d.toUInt8 ↔ c = d :=
    toUInt8_eq_iff hc hd
  have hspread : startsWith ['.', '.', '.'] (c.toUInt8 :: bytesOf cs) = false := by
    rw [← hbytes, startsWith_bytesOf (by simp), Bool.eq_false_iff, Ne, List.isPrefixOf_iff_prefix]
    exact fun ⟨t, ht⟩ => hdot (List.cons.inj ht).1.symm
  unfold splitBytes?
  simp only [byteIs_toUInt8 _ hc, hbyte '#' (by decide), hbyte '"' (by decide),
    hbyte '-' (by decide), Bool.or_eq_true, decide_eq_true_eq, hspread, Bool.false_eq_true,
    if_neg hquote, if_false, ofUInt8_toUInt8 hc, hdecode, hdrop, Option.map_some]
  by_cases hblank : isIgnorable c = true
  · rw [if_pos hblank, splitLexeme_blank hblank]
    rfl
  rw [if_neg hblank]
  by_cases hhash : c = '#'
  · rw [if_pos hhash, hhash, splitLexeme_hash,
      dropWhile_not_byteIs fun _ => toNat_lt_of_isLineEnd]
    rfl
  rw [if_neg hhash]
  by_cases hnumber : c = '-' ∨ c.isDigit = true
  · rw [if_pos hnumber, splitLexeme_number hnumber, skipNumber_bytesOf hnumber]
    rfl
  rw [if_neg hnumber]
  by_cases hname : isNameStart c = true
  · rw [if_pos hname, splitLexeme_name hname, dropWhile_byteIs fun _ => toNat_lt_of_isNameChar]
    rfl
  rw [if_neg hname]
  by_cases hmark : isMark c = true
  · rw [if_pos hmark, splitLexeme_mark hmark]
    rfl
  have hstray : IsStray c := ⟨Bool.eq_false_iff.mpr hblank, hhash, hquote, hdot, hnumber,
    Bool.eq_false_iff.mpr hname, Bool.eq_false_iff.mpr hmark⟩
  have hbom : c ≠ '\ufeff' := by
    rintro rfl
    exact hblank rfl
  rw [if_neg hmark, if_neg hbom, splitLexeme_stray hstray]
  rfl

/-- **One step**: what begins with the first byte of a text is what begins with its first
character, and as long. -/
theorem splitBytes?_bytesOf {c : Char} {cs : List Char} {b : UInt8} {bs : List UInt8}
    (h : bytesOf (c :: cs) = b :: bs) :
    splitBytes? b bs = some ((splitLexeme c cs).1.kind?, bytesOf (splitLexeme c cs).2) := by
  obtain ⟨hdecode, hdrop⟩ := decode_bytesOf h
  obtain ⟨hc, hbytes⟩ | ⟨d, ds, hbytes, hc, hle⟩ := utf8EncodeChar_cases c
  · rw [bytesOf_cons, hbytes] at h
    obtain ⟨rfl, rfl⟩ : c.toUInt8 = b ∧ bytesOf cs = bs := List.cons.inj h
    exact splitBytes?_ascii hc cs
  · rw [bytesOf_cons, hbytes] at h
    obtain ⟨rfl, -⟩ : d = b ∧ _ := List.cons.inj h
    rw [splitBytes?_of_le (hle d List.mem_cons_self), hdecode, splitLexeme_of_not_ascii hc]
    simp only [Option.map_some, hdrop]
    split <;> rfl

/-- One lexeme is taken off the bytes at a time. -/
theorem byteTokens?_cons {b : UInt8} {bs rest : List UInt8} {kind : Option TokenKind}
    (h : splitBytes? b bs = some (kind, rest)) (start : Nat) :
    byteTokens? start (b :: bs) =
      (byteTokens? (start + ((b :: bs).length - rest.length)) rest).map fun ts =>
        (kind.map fun kind => ⟨kind, start, start + ((b :: bs).length - rest.length)⟩).toList ++
          ts := by
  rw [byteTokens?]
  split
  · next hnone =>
    rw [h] at hnone
    contradiction
  · next hsome =>
    obtain ⟨rfl, rfl⟩ := Prod.mk.inj (Option.some.inj (h.symm.trans hsome))
    rfl

/-- The kind of a token with the bytes that it covers. -/
def PlacedToken.extent (p : PlacedToken) : ByteToken := ⟨p.token.kind, p.start, p.stop⟩

/-- From any offset on, the bytes of a text have the tokens of its characters. -/
theorem byteTokens?_bytesOf (start : Nat) (cs : List Char) :
    byteTokens? start (bytesOf cs) =
      some ((placeTokens start (lexemes cs)).map PlacedToken.extent) := by
  fun_induction lexemes cs generalizing start with
  | case1 => rw [bytesOf_nil, byteTokens?, placeTokens, List.map_nil]
  | case2 c cs next ih =>
    obtain ⟨b, bs, hbytes⟩ : ∃ b bs, bytesOf (c :: cs) = b :: bs :=
      List.exists_cons_of_ne_nil (by simp [bytesOf_cons, String.utf8EncodeChar_ne_nil])
    have hstep : splitBytes? b bs = some (next.1.kind?, bytesOf next.2) :=
      splitBytes?_bytesOf hbytes
    have hlength : (b :: bs).length - (bytesOf next.2).length = byteSize next.1.text := by
      rw [← hbytes, length_bytesOf, length_bytesOf, ← splitLexeme_append, byteSize_append]
      exact Nat.add_sub_cancel _ _
    rw [hbytes, byteTokens?_cons hstep, hlength, ih, Option.map_some]
    clear hstep hlength ih
    cases next.1 with
    | ignored text => rfl
    | token t => rfl

/-- **Bytes**: cutting the bytes of a text never looks for a character where none begins, and
finds the tokens that cutting its characters finds, in the same places. -/
theorem byteTokens?_utf8Bytes (source : String) :
    byteTokens? 0 (utf8Bytes source) = some ((placedTokens source).map PlacedToken.extent) := by
  rw [utf8Bytes_eq_flatMap]
  exact byteTokens?_bytesOf 0 source.toList

end QueryDoc.Source
