import QueryDoc.Proofs.Source.Form

/-!
# QueryDoc.Proofs.Source.Cut

Where lexemes end. A lexeme's extent depends on what stands behind it: a name goes on as
long as name characters follow, a number looks for a point, a string for its quote.

`Lexeme.EndsBefore.transfer` replaces the text behind a lexeme by another one that goes on with
no lexeme that the first did not go on with (`EndsLike`), and `isCut_lexemes` says that every
lexeme of a text ends where the next one begins.
-/

namespace QueryDoc.Source

/-! ## What a lexeme sees of the text behind it -/

/-- Characters that no number, no string and no row of dots goes on with. -/
def isQuiet (c : Char) : Bool :=
  !(c.isDigit || c == '.' || c == '"' || c == '+' || c == '-' || c == 'e' || c == 'E')

/-- Whether `rest'` begins like `rest`, or with a character that no number goes on with. -/
def HeadLike (rest rest' : List Char) : Prop :=
  ∀ c ∈ rest'.head?, rest.head? = some c ∨ isQuiet c = true

/-- The same text in front of both rests leaves them alike. -/
theorem HeadLike.append {rest rest' : List Char} (h : HeadLike rest rest') (front : List Char) :
    HeadLike (front ++ rest) (front ++ rest') := by
  intro c hc
  cases front with
  | nil => exact h c hc
  | cons d front => exact Or.inl hc

/-- Whether all that ends before `rest` ends before `rest'` too, names apart. -/
structure EndsLike (rest rest' : List Char) : Prop where
  nil : rest = [] → rest' = []
  lineEnd : (∀ c ∈ rest.head?, isLineEnd c = true) → ∀ c ∈ rest'.head?, isLineEnd c = true
  head : HeadLike rest rest'
  /-- Two dots more or fewer would make a point out of three dots, or three dots of a point. -/
  dots : rest'.head? = some '.' →
    (['.', '.'] <+: rest ↔ ['.', '.'] <+: rest') ∧
      (['.', '.', '.'] <+: rest ↔ ['.', '.', '.'] <+: rest')

/-- A text in front that does not begin with a dot hides all that `EndsLike` asks for. -/
theorem EndsLike.append {rest rest' : List Char} (h : EndsLike rest rest') (front : List Char)
    (hdot : front.head? ≠ some '.') : EndsLike (front ++ rest) (front ++ rest') := by
  cases front with
  | nil => exact h
  | cons c front =>
    refine ⟨fun hn => by simp at hn, fun hl => hl, h.head.append _, fun hd => ?_⟩
    exact absurd hd hdot

/-- Behind dots that are cut off as one, the same may follow. -/
theorem EndsLike.not_dots {rest rest' : List Char} (h : EndsLike rest rest')
    (hn : ¬ ['.', '.'] <+: rest) : ¬ ['.', '.'] <+: rest' := by
  intro hp
  have hd : rest'.head? = some '.' := by
    obtain ⟨t, rfl⟩ := hp
    rfl
  exact hn ((h.dots hd).1.mpr hp)

/-! ## Numbers -/

theorem isQuiet_digit {c : Char} (h : isQuiet c = true) : c.isDigit = false := by
  simp only [isQuiet, Bool.not_eq_true', Bool.or_eq_false_iff] at h
  exact h.1.1.1.1.1.1

/-- If no digit follows in one text, then none follows in the other. -/
theorem HeadLike.not_digit {rest rest' : List Char} (h : HeadLike rest rest')
    (hr : ∀ c ∈ rest.head?, c.isDigit = false) : ∀ c ∈ rest'.head?, c.isDigit = false := by
  intro c hc
  rcases h c hc with hsame | hq
  · exact hr c hsame
  · exact isQuiet_digit hq

/-- A character that a number may go on with stands behind both texts or behind neither. -/
theorem HeadLike.ne {rest rest' : List Char} (h : HeadLike rest rest') {c : Char}
    (hq : isQuiet c = false) (hr : rest.head? ≠ some c) : rest'.head? ≠ some c := by
  intro hc
  rcases h c hc with hsame | hquiet
  · exact hr hsame
  · rw [hq] at hquiet
    contradiction

/-- A minus sign is taken, or nothing. -/
theorem splitMinus_cases (cs : List Char) : (splitMinus cs).1 = [] ∨ (splitMinus cs).1 = ['-'] := by
  unfold splitMinus
  split
  · exact Or.inr rfl
  · exact Or.inl rfl

theorem splitSign_cases (cs : List Char) :
    (splitSign cs).1 = [] ∨ (splitSign cs).1 = ['+'] ∨ (splitSign cs).1 = ['-'] := by
  unfold splitSign
  split
  · exact Or.inr (Or.inl rfl)
  · exact (splitMinus_cases _).imp_right Or.inr

/-- A point with digits behind it is taken, or nothing. -/
theorem splitFraction_cases (cs : List Char) : (splitFraction cs).1 = [] ∨
    ∃ ds, (splitFraction cs).1 = '.' :: ds ∧ ∀ c ∈ ds, c.isDigit = true := by
  unfold splitFraction
  split
  · exact Or.inl rfl
  · next cs _ => exact Or.inr ⟨(spanDigits cs).1, rfl, forall_mem_takeWhile cs⟩
  · exact Or.inl rfl

/-- A letter, a sign and digits are taken, or nothing. -/
theorem splitExponent_cases (cs : List Char) : (splitExponent cs).1 = [] ∨
    ∃ c sign ds, (splitExponent cs).1 = c :: (sign ++ ds) ∧ (c = 'e' ∨ c = 'E') ∧
      (sign = [] ∨ sign = ['+'] ∨ sign = ['-']) ∧ ∀ c ∈ ds, c.isDigit = true := by
  unfold splitExponent
  split
  · exact Or.inl rfl
  split
  · next c cs hc =>
    exact Or.inr ⟨c, (splitSign cs).1, _, rfl, hc, splitSign_cases cs, forall_mem_takeWhile _⟩
  · exact Or.inl rfl

theorem splitMinus_eq_nil {cs : List Char} (h : cs.head? ≠ some '-') :
    splitMinus cs = ([], cs) := by
  unfold splitMinus
  split
  · exact absurd rfl h
  · rfl

/-- Whether a minus sign is taken does not depend on what stands behind the number. -/
theorem splitMinus_transfer {rest rest' minus : List Char}
    (h : splitMinus (minus ++ rest) = (minus, rest)) (hl : HeadLike rest rest') :
    splitMinus (minus ++ rest') = (minus, rest') := by
  unfold splitMinus at h
  split at h
  · cases h
    rfl
  · next hno =>
    cases h
    refine splitMinus_eq_nil (hl.ne (by decide) fun hc => ?_)
    obtain ⟨t, ht⟩ := List.head?_eq_some_iff.mp hc
    exact hno t ht

/-- Digits are taken up to the first character that is none. -/
theorem spanDigits_eq {digits rest : List Char} (hd : ∀ c ∈ digits, c.isDigit = true)
    (hr : ∀ c ∈ rest.head?, c.isDigit = false) : spanDigits (digits ++ rest) = (digits, rest) := by
  rw [spanDigits, takeWhile_append_of_head hd hr, dropWhile_append_of_head hd hr]

theorem spanDigits_transfer {rest rest' digits : List Char}
    (h : spanDigits (digits ++ rest) = (digits, rest)) (hl : HeadLike rest rest') :
    spanDigits (digits ++ rest') = (digits, rest') := by
  have hd : digits = (digits ++ rest).takeWhile Char.isDigit := (congrArg Prod.fst h).symm
  have hr : rest = (digits ++ rest).dropWhile Char.isDigit := (congrArg Prod.snd h).symm
  refine spanDigits_eq ?_ (hl.not_digit ?_)
  · rw [hd]
    exact forall_mem_takeWhile _
  · rw [hr]
    exact head_dropWhile _

theorem splitFraction_eq_nil {cs : List Char} (h : cs.head? ≠ some '.') :
    splitFraction cs = ([], cs) := by
  unfold splitFraction
  split
  · exact absurd rfl h
  · exact absurd rfl h
  · rfl

/-- A point that is not the first of three begins a fraction, even without digits behind it. -/
theorem splitFraction_point {cs : List Char} (h : ¬ ['.', '.'] <+: cs) :
    splitFraction ('.' :: cs) = ('.' :: (spanDigits cs).1, (spanDigits cs).2) := by
  unfold splitFraction
  split
  · next heq =>
    cases heq
    exact absurd ⟨_, rfl⟩ h
  · next heq =>
    cases heq
    rfl
  · next hno => exact absurd rfl (hno _)

/-- No fraction is taken exactly if no point follows, or three of them. -/
theorem splitFraction_nil_iff {cs : List Char} :
    splitFraction cs = ([], cs) ↔ cs.head? ≠ some '.' ∨ ['.', '.', '.'] <+: cs := by
  constructor
  · intro h
    by_cases hdot : cs.head? = some '.'
    · obtain ⟨t, rfl⟩ := List.head?_eq_some_iff.mp hdot
      by_cases hdots : ['.', '.'] <+: t
      · exact Or.inr (List.cons_prefix_cons.mpr ⟨rfl, hdots⟩)
      · rw [splitFraction_point hdots] at h
        cases congrArg Prod.fst h
    · exact Or.inl hdot
  · rintro (hdot | ⟨t, rfl⟩)
    · exact splitFraction_eq_nil hdot
    · rfl

theorem splitFraction_cons_iff {ds rest : List Char} :
    splitFraction ('.' :: (ds ++ rest)) = ('.' :: ds, rest) ↔
      ¬ ['.', '.'] <+: ds ++ rest ∧ spanDigits (ds ++ rest) = (ds, rest) := by
  by_cases hdots : ['.', '.'] <+: ds ++ rest
  · obtain ⟨t, ht⟩ := hdots
    rw [← ht]
    simp [splitFraction]
  · rw [splitFraction_point hdots]
    simp [Prod.ext_iff, hdots]

/-- The fraction is the one part of a number that looks further ahead, for two more dots. -/
theorem splitFraction_transfer {rest rest' fraction : List Char}
    (h : splitFraction (fraction ++ rest) = (fraction, rest)) (he : EndsLike rest rest') :
    splitFraction (fraction ++ rest') = (fraction, rest') := by
  have hcases := splitFraction_cases (fraction ++ rest)
  rw [h] at hcases
  obtain rfl | ⟨ds, rfl, hds⟩ := hcases
  · rw [List.nil_append, splitFraction_nil_iff] at *
    by_cases hd : rest'.head? = some '.'
    · exact Or.inr ((he.dots hd).2.mp (h.resolve_left fun hne => he.head.ne (by decide) hne hd))
    · exact Or.inl hd
  · rw [List.cons_append, splitFraction_cons_iff] at *
    refine ⟨?_, spanDigits_transfer h.2 he.head⟩
    cases ds with
    | nil => exact he.not_dots h.1
    | cons d ds =>
      -- A digit stands behind the point, so the next character is no dot.
      rintro ⟨t, ht⟩
      have hd : d.isDigit = true := hds d List.mem_cons_self
      rw [← (List.cons.inj ht).1] at hd
      contradiction

theorem splitSign_transfer {rest rest' sign : List Char}
    (h : splitSign (sign ++ rest) = (sign, rest)) (hl : HeadLike rest rest') :
    splitSign (sign ++ rest') = (sign, rest') := by
  by_cases hplus : (sign ++ rest).head? = some '+'
  · obtain ⟨t, ht⟩ := List.head?_eq_some_iff.mp hplus
    rw [ht] at h
    cases h
    rfl
  · have hminus {cs : List Char} (hc : cs.head? ≠ some '+') : splitSign cs = splitMinus cs := by
      unfold splitSign
      split
      · exact absurd rfl hc
      · rfl
    rw [hminus hplus] at h
    rw [hminus ((hl.append sign).ne (by decide) hplus)]
    exact splitMinus_transfer h hl

theorem splitExponent_eq_nil {cs : List Char} (he : cs.head? ≠ some 'e')
    (hE : cs.head? ≠ some 'E') : splitExponent cs = ([], cs) := by
  cases cs with
  | nil => rfl
  | cons c cs =>
    have hc : ¬ (c = 'e' ∨ c = 'E') := by
      rintro (rfl | rfl)
      · exact he rfl
      · exact hE rfl
    rw [splitExponent, if_neg hc]

/-- The letter `e` begins an exponent, even without digits behind it. -/
theorem splitExponent_mark {c : Char} (hc : c = 'e' ∨ c = 'E') (cs : List Char) :
    splitExponent (c :: cs) =
      (c :: ((splitSign cs).1 ++ (spanDigits (splitSign cs).2).1),
        (spanDigits (splitSign cs).2).2) := by
  rw [splitExponent, if_pos hc]

/-- No exponent begins with a point, so that one is never taken for a fraction. -/
theorem head_splitExponent_ne_dot (cs : List Char) :
    (splitExponent cs).1.head? ≠ some '.' := by
  obtain h | ⟨c, sign, ds, h, rfl | rfl, -⟩ := splitExponent_cases cs
  · rw [h]
    exact nofun
  · rw [h]
    exact nofun
  · rw [h]
    exact nofun

theorem splitExponent_transfer {rest rest' exponent : List Char}
    (h : splitExponent (exponent ++ rest) = (exponent, rest)) (hl : HeadLike rest rest') :
    splitExponent (exponent ++ rest') = (exponent, rest') := by
  by_cases hmark : (exponent ++ rest).head? = some 'e' ∨ (exponent ++ rest).head? = some 'E'
  · obtain ⟨c, hc, t, ht⟩ : ∃ c, (c = 'e' ∨ c = 'E') ∧ ∃ t, exponent ++ rest = c :: t := by
      rcases hmark with hm | hm
      · exact ⟨'e', Or.inl rfl, List.head?_eq_some_iff.mp hm⟩
      · exact ⟨'E', Or.inr rfl, List.head?_eq_some_iff.mp hm⟩
    rw [ht, splitExponent_mark hc] at h
    generalize hsign : (splitSign t).1 = sign at h
    generalize hafter : (splitSign t).2 = after at h
    have hx : exponent = c :: (sign ++ (spanDigits after).1) := (congrArg Prod.fst h).symm
    have hr : rest = (spanDigits after).2 := (congrArg Prod.snd h).symm
    have happ : after = (spanDigits after).1 ++ rest := by
      rw [hr, spanDigits_append]
    have hspan : spanDigits ((spanDigits after).1 ++ rest') = ((spanDigits after).1, rest') :=
      spanDigits_transfer (by rw [← happ, hr]) hl
    have hcut : splitSign (sign ++ ((spanDigits after).1 ++ rest')) =
        (sign, (spanDigits after).1 ++ rest') := by
      refine splitSign_transfer ?_ (hl.append (spanDigits after).1)
      rw [← happ, ← hsign, ← hafter, splitSign_append]
    rw [hx, List.cons_append, List.append_assoc, splitExponent_mark hc, hcut, hspan]
  · obtain ⟨he, hE⟩ := not_or.mp hmark
    rw [splitExponent_eq_nil he hE] at h
    have hx : exponent = [] := (congrArg Prod.fst h).symm
    subst hx
    exact splitExponent_eq_nil (hl.ne (by decide) he) (hl.ne (by decide) hE)

/-- Whether each part of a number is split off in front of what the parts behind it and `rest`
make up. -/
structure NumberText.CutBefore (n : NumberText) (rest : List Char) : Prop where
  whole : ∃ minus digits, n.whole = minus ++ digits ∧
    splitMinus (minus ++ (digits ++ (n.fraction ++ (n.exponent ++ rest)))) =
      (minus, digits ++ (n.fraction ++ (n.exponent ++ rest))) ∧
    spanDigits (digits ++ (n.fraction ++ (n.exponent ++ rest))) =
      (digits, n.fraction ++ (n.exponent ++ rest))
  fraction : splitFraction (n.fraction ++ (n.exponent ++ rest)) = (n.fraction, n.exponent ++ rest)
  exponent : splitExponent (n.exponent ++ rest) = (n.exponent, rest)

/-- Each part of a number that has been cut off ends before what follows it. -/
theorem cutBefore_splitNumber (cs : List Char) :
    (splitNumber cs).1.CutBefore (splitNumber cs).2 where
  whole := ⟨(splitMinus cs).1, (spanDigits (splitMinus cs).2).1, rfl, by
    simp only [splitNumber, splitExponent_append, splitFraction_append, spanDigits_append,
      splitMinus_append, and_self]⟩
  fraction := by simp only [splitNumber, splitExponent_append, splitFraction_append]
  exponent := by simp only [splitNumber, splitExponent_append]

/-- A number is cut off as these parts exactly if each of them ends before what follows it. -/
theorem splitNumber_eq_iff {n : NumberText} {rest : List Char} :
    splitNumber (n.text ++ rest) = (n, rest) ↔ n.CutBefore rest := by
  constructor
  · intro h
    have hcut := cutBefore_splitNumber (n.text ++ rest)
    rwa [h] at hcut
  · rintro ⟨⟨minus, digits, hwhole, hminus, hdigits⟩, hfraction, hexponent⟩
    simp only [NumberText.text, hwhole, List.append_assoc, splitNumber, hminus, hdigits,
      hfraction, hexponent]
    rw [← hwhole]

/-- A number ends in the same place before rests that are alike. -/
theorem NumberText.CutBefore.transfer {n : NumberText} {rest rest' : List Char}
    (h : n.CutBefore rest) (he : EndsLike rest rest') : n.CutBefore rest' := by
  obtain ⟨minus, digits, hwhole, hminus, hdigits⟩ := h.whole
  have hdot : n.exponent.head? ≠ some '.' := by
    have hne := head_splitExponent_ne_dot (n.exponent ++ rest)
    rwa [h.exponent] at hne
  have hexponent : EndsLike (n.exponent ++ rest) (n.exponent ++ rest') := he.append _ hdot
  have hfraction := hexponent.head.append n.fraction
  exact {
    whole := ⟨minus, digits, hwhole, splitMinus_transfer hminus (hfraction.append digits),
      spanDigits_transfer hdigits hfraction⟩
    fraction := splitFraction_transfer h.fraction hexponent
    exponent := splitExponent_transfer h.exponent he.head }

/-- A number of the usual form: a sign, digits, a point with digits, and an exponent with a
sign and digits. All digits may be missing. -/
structure NumberText.IsRegular (n : NumberText) : Prop where
  whole : ∃ minus ds, n.whole = minus ++ ds ∧ (minus = [] ∨ minus = ['-']) ∧
    ∀ c ∈ ds, c.isDigit = true
  fraction : n.fraction = [] ∨ ∃ ds, n.fraction = '.' :: ds ∧ ∀ c ∈ ds, c.isDigit = true
  exponent : n.exponent = [] ∨ ∃ c sign ds, n.exponent = c :: (sign ++ ds) ∧ (c = 'e' ∨ c = 'E') ∧
    (sign = [] ∨ sign = ['+'] ∨ sign = ['-']) ∧ ∀ c ∈ ds, c.isDigit = true

/-- What is split off a text as a number is one of the usual form. -/
theorem isRegular_splitNumber (cs : List Char) : (splitNumber cs).1.IsRegular where
  whole := ⟨_, _, rfl, splitMinus_cases cs, forall_mem_takeWhile _⟩
  fraction := splitFraction_cases _
  exponent := splitExponent_cases _

/-- Whether a text begins with a character that no number goes on with, if with anything. -/
def StartsQuietly (rest : List Char) : Prop := ∀ c ∈ rest.head?, isQuiet c = true

theorem StartsQuietly.head_ne {rest : List Char} (h : StartsQuietly rest) {c : Char}
    (hc : isQuiet c = false) : rest.head? ≠ some c := by
  intro hh
  have hq := h c hh
  rw [hc] at hq
  contradiction

theorem head_digits_append_ne {ds rest : List Char} {c : Char}
    (hds : ∀ d ∈ ds, d.isDigit = true) (hc : c.isDigit = false) (hr : rest.head? ≠ some c) :
    (ds ++ rest).head? ≠ some c := by
  cases ds with
  | nil => exact hr
  | cons d ds =>
    rintro ⟨⟩
    rw [hds c List.mem_cons_self] at hc
    contradiction

/-- In an exponent the sign is taken by itself, and nothing but digits is left of it. -/
theorem splitSign_append_digits {sign ds rest : List Char}
    (hsign : sign = [] ∨ sign = ['+'] ∨ sign = ['-']) (hds : ∀ c ∈ ds, c.isDigit = true)
    (hr : StartsQuietly rest) : splitSign (sign ++ (ds ++ rest)) = (sign, ds ++ rest) := by
  obtain rfl | rfl | rfl := hsign
  · have hplus := head_digits_append_ne hds (by decide) (hr.head_ne (c := '+') rfl)
    have hminus := head_digits_append_ne hds (by decide) (hr.head_ne (c := '-') rfl)
    rw [List.nil_append, splitSign]
    · exact splitMinus_eq_nil hminus
    · rintro cs heq
      rw [heq] at hplus
      exact hplus rfl
  · rfl
  · rfl

namespace NumberText.IsRegular

variable {n : NumberText} {rest : List Char}

/-- An exponent continues neither the whole part nor the fraction. -/
theorem head_exponent (h : n.IsRegular) (hr : StartsQuietly rest) :
    ∀ c ∈ (n.exponent ++ rest).head?, c.isDigit = false ∧ c ≠ '.' ∧ c ≠ '-' := by
  intro c hc
  cases h.exponent with
  | inl he =>
    rw [he, List.nil_append] at hc
    refine ⟨isQuiet_digit (hr c hc), ?_, ?_⟩
    · rintro rfl
      exact hr.head_ne rfl hc
    · rintro rfl
      exact hr.head_ne rfl hc
  | inr he =>
    obtain ⟨d, sign, ds, he, hd, -⟩ := he
    rw [he] at hc
    cases hc
    obtain rfl | rfl := hd
    · decide
    · decide

/-- A fraction does not continue the whole part. -/
theorem head_fraction (h : n.IsRegular) (hr : StartsQuietly rest) :
    ∀ c ∈ (n.fraction ++ (n.exponent ++ rest)).head?, c.isDigit = false ∧ c ≠ '-' := by
  intro c hc
  cases h.fraction with
  | inl hf =>
    rw [hf, List.nil_append] at hc
    obtain ⟨hdigit, -, hminus⟩ := h.head_exponent hr c hc
    exact ⟨hdigit, hminus⟩
  | inr hf =>
    obtain ⟨fs, hf, -⟩ := hf
    rw [hf] at hc
    cases hc
    decide

/-- The parts of a number of the usual form are found again in front of what no number goes on
with. -/
theorem cutBefore (h : n.IsRegular) (hr : StartsQuietly rest) : n.CutBefore rest where
  whole := by
    obtain ⟨minus, ds, hwhole, hminus, hds⟩ := h.whole
    have hhead := h.head_fraction hr
    refine ⟨minus, ds, hwhole, ?_, spanDigits_eq hds fun c hc => (hhead c hc).1⟩
    obtain rfl | rfl := hminus
    · have hminus : (n.fraction ++ (n.exponent ++ rest)).head? ≠ some '-' :=
        fun hc => (hhead '-' hc).2 rfl
      rw [List.nil_append]
      exact splitMinus_eq_nil (head_digits_append_ne hds (by decide) hminus)
    · rfl
  fraction := by
    have hhead := h.head_exponent hr
    have hpoint : (n.exponent ++ rest).head? ≠ some '.' := fun hc => (hhead '.' hc).2.1 rfl
    cases h.fraction with
    | inl hf =>
      rw [hf]
      exact splitFraction_eq_nil hpoint
    | inr hf =>
      obtain ⟨fs, hf, hfs⟩ := hf
      have hdots : ¬ ['.', '.'] <+: fs ++ (n.exponent ++ rest) := by
        rintro ⟨t, ht⟩
        refine head_digits_append_ne hfs (by decide) hpoint ?_
        rw [← ht]
        rfl
      rw [hf, List.cons_append, splitFraction_point hdots,
        spanDigits_eq hfs fun c hc => (hhead c hc).1]
  exponent := by
    cases h.exponent with
    | inl he =>
      rw [he]
      exact splitExponent_eq_nil (hr.head_ne rfl) (hr.head_ne rfl)
    | inr he =>
      obtain ⟨c, sign, es, he, hc, hsign, hes⟩ := he
      rw [he, List.cons_append, List.append_assoc, splitExponent_mark hc,
        splitSign_append_digits hsign hes hr, spanDigits_eq hes fun c hc => isQuiet_digit (hr c hc)]

/-- A regular number is cut off whole in front of every quiet start. -/
theorem splitNumber_append (h : n.IsRegular) (hr : StartsQuietly rest) :
    splitNumber (n.text ++ rest) = (n, rest) :=
  splitNumber_eq_iff.mpr (h.cutBefore hr)

end NumberText.IsRegular

/-! ## Strings and comments -/

/-- A string goes on over every character but a quote and a line end. -/
theorem splitString_of_ne {c : Char} (hc : c ≠ '\\') (cs : List Char) :
    splitString (c :: cs) =
      if c = '"' then (['"'], cs)
      else if isLineEnd c then ([], c :: cs)
      else (c :: (splitString cs).1, (splitString cs).2) := by
  rw [splitString]
  intro x xs hx
  exact absurd hx hc

/-- A string that has been cut off ends in the same place before rests that are alike. -/
theorem splitString_transfer {cs taken rest rest' : List Char}
    (h : splitString cs = (taken, rest)) (he : EndsLike rest rest') :
    splitString (taken ++ rest') = (taken, rest') := by
  fun_induction splitString cs generalizing taken with
  | case1 =>
    cases h
    rw [List.nil_append, he.nil rfl, splitString]
  | case2 c cs taken₁ rest₁ hs ih =>
    cases h
    simp only [List.cons_append, splitString, ih hs]
  | case3 cs =>
    cases h
    simp [splitString]
  | case4 c cs hesc hquote hend =>
    cases h
    rw [List.nil_append]
    cases rest' with
    | nil => rw [splitString]
    | cons d ds =>
      have hd : isLineEnd d = true := he.lineEnd (fun x hx => by cases hx; exact hend) d rfl
      have hne {x : Char} (hx : ¬ isLineEnd x = true) : d ≠ x := fun e => hx (e ▸ hd)
      rw [splitString_of_ne (hne (by decide)), if_neg (hne (by decide)), if_pos hd]
  | case5 c cs hesc hquote hend taken₁ rest₁ hs ih =>
    cases h
    by_cases hback : c = '\\'
    · -- A backslash that took nothing with it stands at the end of the text.
      cases cs with
      | nil =>
        cases hs
        rw [hback, he.nil rfl]
        rfl
      | cons x xs => exact absurd rfl (hesc x xs hback)
    · rw [List.cons_append, splitString_of_ne hback, if_neg hquote, if_neg hend, ih hs]

/-- A block string is closed by three quotes or reaches to the end of the text. -/
theorem three_le_length_splitBlockString (cs : List Char) :
    (splitBlockString cs).2 = [] ∨ 3 ≤ (splitBlockString cs).1.length := by
  fun_induction splitBlockString cs with
  | case1 => exact Or.inl rfl
  | case2 cs taken rest hs ih =>
    right
    simp only [List.length_cons]
    omega
  | case3 cs => exact Or.inr (Nat.le_refl 3)
  | case4 c cs hesc hquotes taken rest hs ih =>
    rw [hs] at ih
    rcases ih with hnil | hlen
    · exact Or.inl hnil
    · exact Or.inr (Nat.le_succ_of_le hlen)

/-- A block string has its own end, so that only the end of the text has to stay. -/
theorem splitBlockString_transfer {cs taken rest rest' : List Char}
    (h : splitBlockString cs = (taken, rest)) (he : rest = [] → rest' = []) :
    splitBlockString (taken ++ rest') = (taken, rest') := by
  fun_induction splitBlockString cs generalizing taken with
  | case1 =>
    cases h
    rw [List.nil_append, he rfl, splitBlockString]
  | case2 cs taken₁ rest₁ hs ih =>
    cases h
    simp only [List.cons_append, splitBlockString, ih hs]
  | case3 cs =>
    cases h
    simp only [List.cons_append, List.nil_append, splitBlockString]
  | case4 c cs hesc hquotes taken₁ rest₁ hs ih =>
    cases h
    have hrec := ih hs
    have happ : taken₁ ++ rest = cs := by
      have := splitBlockString_append cs
      rwa [hs] at this
    -- The next three characters are the same with `rest` and with `rest'` behind them.
    have hnext : (taken₁ ++ rest').take 3 = cs.take 3 := by
      have hlen := three_le_length_splitBlockString cs
      rw [hs] at hlen
      rw [← happ]
      rcases hlen with hnil | hlen
      · have hrest : rest = [] := hnil
        rw [hrest, he hrest]
      · rw [List.take_append_of_le_length hlen, List.take_append_of_le_length hlen]
    have hfront (quotes : List Char) {x : List Char} (hlen : quotes.length ≤ 3)
        (hx : taken₁ ++ rest' = quotes ++ x) : ∃ y, cs = quotes ++ y := by
      have htake := List.prefix_take_iff.mpr ⟨⟨x, hx.symm⟩, hlen⟩
      rw [hnext] at htake
      obtain ⟨y, hy⟩ := (List.prefix_take_iff.mp htake).1
      exact ⟨y, hy.symm⟩
    rw [List.cons_append, splitBlockString, hrec]
    · intro x hc hx
      obtain ⟨y, rfl⟩ := hfront ['"', '"', '"'] (by decide) hx
      exact hesc y hc rfl
    · intro x hc hx
      obtain ⟨y, rfl⟩ := hfront ['"', '"'] (by decide) hx
      exact hquotes y hc rfl

/-! ## Any lexeme -/

/-- No quotes come to stand behind the opening quote of a string that make it a block string. -/
theorem not_quotes_of_splitString {body rest rest' : List Char}
    (h : splitString (body ++ rest) = (body, rest)) (hl : HeadLike rest rest')
    (hno : ¬ ['"', '"'] <+: body ++ rest) : ¬ ['"', '"'] <+: body ++ rest' := by
  rintro ⟨t, ht⟩
  cases body with
  | nil =>
    have hquote : rest.head? = some '"' := by
      by_contra hne
      refine hl.ne (by decide) hne ?_
      rw [List.nil_append] at ht
      rw [← ht]
      rfl
    obtain ⟨u, rfl⟩ := List.head?_eq_some_iff.mp hquote
    simp [splitString] at h
  | cons c body =>
    obtain ⟨rfl, hbody⟩ := List.cons.inj ht
    have hnil : body = [] := by
      have hfst := congrArg Prod.fst h
      simp [splitString] at hfst
      exact hfst
    subst hnil
    have hrest : rest' = '"' :: t := hbody.symm
    refine hl.ne (c := '"') (by decide) (fun hq => ?_) (by rw [hrest]; rfl)
    obtain ⟨u, rfl⟩ := List.head?_eq_some_iff.mp hq
    exact hno ⟨u, rfl⟩

/-- A lexeme ends before any text that goes on with no more than `rest` did. A name needs a
character that is not in it behind it besides. -/
theorem Lexeme.EndsBefore.transfer {l : Lexeme} {rest rest' : List Char} (h : l.EndsBefore rest)
    (he : EndsLike rest rest')
    (hname : l.kind? = some .name → ∀ c ∈ rest'.head?, isNameChar c = false) :
    l.EndsBefore rest' := by
  refine Form.endsBefore ?_
  cases h.form with
  | blank hc => exact .blank hc
  | comment hbody hend => exact .comment hbody (he.lineEnd hend)
  | blockString h => exact .blockString (splitBlockString_transfer h he.nil)
  | string hquotes h =>
    exact .string (not_quotes_of_splitString h he.head hquotes) (splitString_transfer h he)
  | spread => exact .spread
  | dot hdots => exact .dot (he.not_dots hdots)
  | number hstart h =>
    exact .number hstart (splitNumber_eq_iff.mpr ((splitNumber_eq_iff.mp h).transfer he))
  | name hn _ => exact .name hn (hname rfl)
  | mark hc => exact .mark hc
  | stray hc => exact .stray hc

/-! ## Rows of dots -/

/-- The number of dots in front of a text. -/
def leadingDots : List Char → Nat
  | '.' :: cs => leadingDots cs + 1
  | _ => 0

theorem leadingDots_of_head_ne {cs : List Char} (h : cs.head? ≠ some '.') : leadingDots cs = 0 := by
  unfold leadingDots
  split
  · exact absurd rfl h
  · rfl

/-- How many dots come first decides which runs of dots a text begins with. -/
theorem replicate_dots_prefix_iff (n : Nat) (cs : List Char) :
    List.replicate n '.' <+: cs ↔ n ≤ leadingDots cs := by
  induction n generalizing cs with
  | zero => simp
  | succ n ih =>
    rw [List.replicate_succ]
    by_cases hc : cs.head? = some '.'
    · obtain ⟨t, rfl⟩ := List.head?_eq_some_iff.mp hc
      rw [List.cons_prefix_cons, ih, leadingDots]
      simp
    · rw [leadingDots_of_head_ne hc]
      constructor
      · rintro ⟨t, rfl⟩
        exact absurd rfl hc
      · intro hle
        omega

/-- With as many dots in front of both texts, the dots of `EndsLike` need no attention. -/
theorem EndsLike.of_leadingDots {rest rest' : List Char} (hn : rest = [] → rest' = [])
    (hl : (∀ c ∈ rest.head?, isLineEnd c = true) → ∀ c ∈ rest'.head?, isLineEnd c = true)
    (hh : HeadLike rest rest') (hd : leadingDots rest = leadingDots rest') :
    EndsLike rest rest' := by
  have hdots (n : Nat) : List.replicate n '.' <+: rest ↔ List.replicate n '.' <+: rest' := by
    rw [replicate_dots_prefix_iff, replicate_dots_prefix_iff, hd]
  exact ⟨hn, hl, hh, fun _ => ⟨hdots 2, hdots 3⟩⟩

/-- A lexeme hides the difference between rests with equally many dots in front. -/
theorem Lexeme.EndsBefore.leadingDots_append {l : Lexeme} {rest rest' : List Char}
    (h : l.EndsBefore rest) (hd : leadingDots rest = leadingDots rest') :
    leadingDots (l.text ++ rest) = leadingDots (l.text ++ rest') := by
  by_cases hdot : l.text.head? = some '.'
  · cases h.text_of_dot hdot with
    | inl ht => simp [ht, leadingDots, hd]
    | inr ht => simp [ht, leadingDots, hd]
  · obtain ⟨c, body, ht⟩ := List.exists_cons_of_ne_nil h.text_ne_nil
    have hc {cs : List Char} : (l.text ++ cs).head? ≠ some '.' := by
      rw [ht] at hdot ⊢
      exact hdot
    rw [leadingDots_of_head_ne hc, leadingDots_of_head_ne hc]

/-! ## Rows of lexemes -/

/-- Whether every lexeme ends where the next one begins. -/
def IsCut : List Lexeme → Prop
  | [] => True
  | l :: ls => l.EndsBefore (ls.flatMap Lexeme.text) ∧ IsCut ls

/-- Each lexeme of a text ends before those that follow it. -/
theorem isCut_lexemes (cs : List Char) : IsCut (lexemes cs) := by
  fun_induction lexemes cs with
  | case1 => trivial
  | case2 c cs next ih =>
    refine ⟨?_, ih⟩
    rw [flatMap_text_lexemes]
    exact endsBefore_of_splitLexeme rfl

/-- Lexemes that end before those that follow them are found again in their joined texts. -/
theorem lexemes_flatMap_text {ls : List Lexeme} (h : IsCut ls) :
    lexemes (ls.flatMap Lexeme.text) = ls := by
  induction ls with
  | nil => rw [List.flatMap_nil, lexemes]
  | cons l ls ih => rw [List.flatMap_cons, h.1.lexemes_append, ih h.2]

/-- The lexemes behind a cut are cut among themselves. -/
theorem IsCut.of_append {ls ms : List Lexeme} (h : IsCut (ls ++ ms)) : IsCut ms := by
  induction ls with
  | nil => exact h
  | cons l ls ih => exact ih h.2

theorem IsCut.endsBefore_of_mem {ls : List Lexeme} (h : IsCut ls) {l : Lexeme} (hl : l ∈ ls) :
    ∃ rest, l.EndsBefore rest := by
  induction ls with
  | nil => contradiction
  | cons m ls ih =>
    cases List.mem_cons.mp hl with
    | inl heq => exact ⟨_, heq ▸ h.1⟩
    | inr hmem => exact ih h.2 hmem

theorem mem_lexemes_of_mem_tokens {cs : List Char} {t : Token} (h : t ∈ tokens cs) :
    Lexeme.token t ∈ lexemes cs := by
  obtain ⟨l, hl, ht⟩ := List.mem_filterMap.mp h
  cases l with
  | ignored text => contradiction
  | token u =>
    cases ht
    exact hl

/-- A token ends where it has ended in the text that it was found in. -/
theorem endsBefore_of_mem_tokens {cs : List Char} {t : Token} (h : t ∈ tokens cs) :
    ∃ rest, (Lexeme.token t).EndsBefore rest :=
  (isCut_lexemes cs).endsBefore_of_mem (mem_lexemes_of_mem_tokens h)

/-- Every token of a text has the form of its kind. -/
theorem hasForm_of_mem_lexemes {cs : List Char} {t : Token} (h : Lexeme.token t ∈ lexemes cs) :
    t.HasForm := by
  obtain ⟨rest, hrest⟩ := (isCut_lexemes cs).endsBefore_of_mem h
  exact hrest.hasForm

end QueryDoc.Source
