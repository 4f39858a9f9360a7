import QueryDoc.Binary64.Shortest
import QueryDoc.Proofs.Source.Placeholder

/-!
# QueryDoc.Proofs.Source.Float

The texts of floats as numbers of source text. Each of the texts that a binary number is
written as is a whole part, a fraction and a power of ten, and with a point in it
it is of kind float (`Binary64.exists_pointed_shortText`).
-/

namespace QueryDoc

open Source (NumberText)

/-! ## Digits -/

/-- One or more decimal digits. -/
def IsDigits (ds : List Char) : Prop := ds ≠ [] ∧ ∀ c ∈ ds, c.isDigit = true

theorem isDigits_digits (n : Nat) : IsDigits (Decimal.digits n) :=
  ⟨Source.digits_ne_nil n, fun _ hc => Decimal.isDigit_of_mem_digits hc⟩

/-- The digits of a number begin with one, and so with neither sign. -/
theorem exists_head_digits (n : Nat) :
    ∃ c ds, Decimal.digits n = c :: ds ∧ c.isDigit = true ∧ c ≠ '+' ∧ c ≠ '-' := by
  obtain ⟨c, ds, hds⟩ := List.exists_cons_of_ne_nil (isDigits_digits n).1
  have hc := (isDigits_digits n).2 c (hds ▸ List.mem_cons_self)
  refine ⟨c, ds, hds, hc, ?_, ?_⟩ <;> rintro rfl <;> exact absurd hc (by decide)

theorem isDigit_of_mem_zeros {n : Nat} {c : Char} (h : c ∈ List.replicate n '0') :
    c.isDigit = true := by
  rw [(List.mem_replicate.mp h).2]
  rfl

/-- Digits may follow digits. -/
theorem IsDigits.append {ds es : List Char} (h : IsDigits ds) (he : ∀ c ∈ es, c.isDigit = true) :
    IsDigits (ds ++ es) :=
  ⟨List.append_ne_nil_of_left_ne_nil h.1 es, List.forall_mem_append.mpr ⟨h.2, he⟩⟩

theorem IsDigits.take {ds : List Char} (h : IsDigits ds) {n : Nat} (hn : 0 < n) :
    IsDigits (ds.take n) := by
  refine ⟨?_, fun c hc => h.2 c (List.mem_of_mem_take hc)⟩
  have hlen := List.length_pos_iff.mpr h.1
  exact List.ne_nil_of_length_pos (by rw [List.length_take]; omega)

/-- A number other than zero does not begin with a zero. -/
theorem head_digits_ne_zero {n : Nat} (h : 0 < n) : (Decimal.digits n).head? ≠ some '0' := by
  induction n using Nat.strongRecOn with
  | ind n ih =>
    by_cases hn : n < 10
    · have hdigit : ∀ n < 10, 0 < n → Nat.digitChar n ≠ '0' := by decide
      rw [Decimal.digits, Nat.toDigits_of_lt_base hn, List.head?_cons, ne_eq, Option.some.injEq]
      exact hdigit n hn h
    · have hdiv : 0 < n / 10 := by omega
      have hfront := ih (n / 10) (by omega) hdiv
      rw [Decimal.digits, Nat.toDigits_of_base_le (by decide) (by omega),
        List.head?_append_of_ne_nil _ Nat.toDigits_ne_nil]
      exact hfront

/-! ## Numbers -/

/-- A number with digits in front, whose power of ten stands behind the letter `e`. -/
structure IsNumber (n : NumberText) : Prop where
  regular : n.IsRegular
  digits : ∃ minus ds, n.whole = minus ++ ds ∧ (minus = [] ∨ minus = ['-']) ∧ IsDigits ds
  mark : n.exponent = [] ∨ n.exponent.head? = some 'e'

/-- A number is made of an optional sign, digits, and optional parts behind a point and a letter. -/
theorem isNumber {minus ds fraction exponent : List Char} (hminus : minus = [] ∨ minus = ['-'])
    (hds : IsDigits ds)
    (hf : fraction = [] ∨ ∃ fs, fraction = '.' :: fs ∧ ∀ c ∈ fs, c.isDigit = true)
    (he : exponent = [] ∨ ∃ sign es, exponent = 'e' :: (sign ++ es) ∧
      (sign = [] ∨ sign = ['+'] ∨ sign = ['-']) ∧ ∀ c ∈ es, c.isDigit = true) :
    IsNumber ⟨minus ++ ds, fraction, exponent⟩ where
  regular :=
    { whole := ⟨minus, ds, rfl, hminus, hds.2⟩
      fraction := hf
      exponent := he.imp id fun ⟨sign, es, heq, hsign, hes⟩ =>
        ⟨'e', sign, es, heq, Or.inl rfl, hsign, hes⟩ }
  digits := ⟨minus, ds, rfl, hminus, hds⟩
  mark := he.imp id fun ⟨_, _, heq, _, _⟩ => by simp [heq]

namespace Decimal

theorem sign_cases (x : Decimal) : x.sign = [] ∨ x.sign = ['-'] := by
  unfold sign
  split
  · exact Or.inr rfl
  · exact Or.inl rfl

/-- Without a power of ten, a decimal has a fraction exactly if its exponent is negative. -/
theorem exists_positional (x : Decimal) :
    ∃ n : NumberText, n.text = x.positional ∧ IsNumber n ∧ n.exponent = [] ∧
      (n.fraction = [] ↔ 0 ≤ x.exponent) := by
  have hds := isDigits_digits x.coefficient
  by_cases hx : 0 ≤ x.exponent
  · have hall := hds.append fun _ hc => isDigit_of_mem_zeros (n := x.exponent.toNat) hc
    refine ⟨⟨x.sign ++ (digits x.coefficient ++ List.replicate x.exponent.toNat '0'), [], []⟩, ?_,
      isNumber x.sign_cases hall (Or.inl rfl) (Or.inl rfl), rfl, by simp [hx]⟩
    simp [positional, hx, NumberText.text]
  · by_cases hlen : (digits x.coefficient).length ≤ (-x.exponent).toNat
    · have hzero : IsDigits ['0'] :=
        ⟨List.cons_ne_nil _ _, List.forall_mem_singleton.mpr rfl⟩
      have hfraction : ∀ c ∈ List.replicate ((-x.exponent).toNat - (digits x.coefficient).length)
          '0' ++ digits x.coefficient, c.isDigit = true :=
        List.forall_mem_append.mpr ⟨fun _ hc => isDigit_of_mem_zeros hc, hds.2⟩
      refine ⟨⟨x.sign ++ ['0'], '.' :: (List.replicate ((-x.exponent).toNat -
        (digits x.coefficient).length) '0' ++ digits x.coefficient), []⟩, ?_,
        isNumber x.sign_cases hzero (Or.inr ⟨_, rfl, hfraction⟩) (Or.inl rfl), rfl, by simp [hx]⟩
      simp [positional, hx, hlen, NumberText.text]
    · have hwhole := hds.take (n := (digits x.coefficient).length - (-x.exponent).toNat) (by omega)
      have hfraction : ∀ c ∈ (digits x.coefficient).drop
          ((digits x.coefficient).length - (-x.exponent).toNat), c.isDigit = true := fun c hc =>
        hds.2 c (List.mem_of_mem_drop hc)
      refine ⟨⟨x.sign ++ (digits x.coefficient).take
        ((digits x.coefficient).length - (-x.exponent).toNat), '.' :: (digits x.coefficient).drop
        ((digits x.coefficient).length - (-x.exponent).toNat), []⟩, ?_,
        isNumber x.sign_cases hwhole (Or.inr ⟨_, rfl, hfraction⟩) (Or.inl rfl), rfl, by simp [hx]⟩
      simp [positional, hx, hlen, NumberText.text]

/-- A decimal with a power of ten is a number with an exponent. -/
theorem exists_scientific (x : Decimal) :
    ∃ n : NumberText, n.text = x.scientific ∧ IsNumber n := by
  have hds := isDigits_digits x.coefficient
  have hexponent : ∃ sign es, 'e' :: intText (x.magnitude - 1) = 'e' :: (sign ++ es) ∧
      (sign = [] ∨ sign = ['+'] ∨ sign = ['-']) ∧ ∀ c ∈ es, c.isDigit = true := by
    unfold intText
    split
    · exact ⟨['-'], _, rfl, Or.inr (Or.inr rfl), (isDigits_digits _).2⟩
    · exact ⟨[], _, rfl, Or.inl rfl, (isDigits_digits _).2⟩
  by_cases hlen : (digits x.coefficient).length ≤ 1
  · refine ⟨⟨x.sign ++ (digits x.coefficient).take 1, [], 'e' :: intText (x.magnitude - 1)⟩, ?_,
      isNumber x.sign_cases (hds.take Nat.one_pos) (Or.inl rfl) (Or.inr hexponent)⟩
    simp [scientific, hlen, NumberText.text]
  · have hfraction : ∀ c ∈ (digits x.coefficient).drop 1, c.isDigit = true := fun c hc =>
      hds.2 c (List.mem_of_mem_drop hc)
    refine ⟨⟨x.sign ++ (digits x.coefficient).take 1, '.' :: (digits x.coefficient).drop 1,
      'e' :: intText (x.magnitude - 1)⟩, ?_,
      isNumber x.sign_cases (hds.take Nat.one_pos) (Or.inr ⟨_, rfl, hfraction⟩)
        (Or.inr hexponent)⟩
    simp only [scientific, hlen, if_false, NumberText.text, List.append_assoc]

end Decimal

/-! ## Points -/

/-- Nothing but digits and a minus sign stands in front of the point. -/
theorem IsNumber.not_mem_whole {n : NumberText} (h : IsNumber n) {c : Char} (hminus : c ≠ '-')
    (hdigit : c.isDigit = false) : c ∉ n.whole := by
  obtain ⟨minus, ds, hwhole, hsign, hds⟩ := h.digits
  rw [hwhole, List.mem_append]
  rintro (hc | hc)
  · obtain rfl | rfl := hsign
    · contradiction
    · exact hminus (List.mem_singleton.mp hc)
  · rw [hds.2 c hc] at hdigit
    contradiction

/-- A point in a number begins its fraction. -/
theorem IsNumber.dot_not_mem_exponent {n : NumberText} (h : IsNumber n) : '.' ∉ n.exponent := by
  intro hdot
  obtain hnil | ⟨c, sign, es, he, hc, hsign, hes⟩ := h.regular.exponent
  · rw [hnil] at hdot
    contradiction
  · rw [he, List.mem_cons, List.mem_append] at hdot
    obtain hdot | hdot | hdot := hdot
    · subst hdot
      obtain hc | hc := hc <;> contradiction
    · obtain rfl | rfl | rfl := hsign <;> simp at hdot
    · exact absurd (hes '.' hdot) (by decide)

/-- A number stays one with `.0` behind its whole part. -/
theorem IsNumber.withPoint {n : NumberText} (h : IsNumber n) :
    IsNumber { n with fraction := ['.', '0'] } where
  regular := { h.regular with fraction := Or.inr ⟨['0'], rfl, List.forall_mem_singleton.mpr rfl⟩ }
  digits := h.digits
  mark := h.mark

/-- With a point a number stays a number. -/
theorem IsNumber.exists_pointed {n : NumberText} (h : IsNumber n) :
    ∃ m : NumberText, m.text = Binary64.pointed n.text ∧ IsNumber m ∧ m.fraction ≠ [] := by
  unfold Binary64.pointed
  split
  · next hdot =>
    refine ⟨n, rfl, h, fun hnil => ?_⟩
    rw [NumberText.text, hnil, List.append_nil, List.mem_append] at hdot
    obtain hdot | hdot := hdot
    · exact h.not_mem_whole (by decide) (by decide) hdot
    · exact h.dot_not_mem_exponent hdot
  · next hdot =>
    have hnil : n.fraction = [] := by
      obtain hnil | ⟨fs, hf, -⟩ := h.regular.fraction
      · exact hnil
      · exact absurd (by simp [NumberText.text, hf]) hdot
    have hwhole : ∀ c ∈ n.whole, (decide (c ≠ 'e')) = true := by
      intro c hc
      rw [decide_eq_true_eq]
      rintro rfl
      exact h.not_mem_whole (by decide) (by decide) hc
    have hexponent : ∀ c ∈ n.exponent.head?, decide (c ≠ 'e') = false := by
      intro c hc
      obtain he | he := h.mark
      · rw [he] at hc
        contradiction
      · rw [he] at hc
        cases hc
        rfl
    refine ⟨{ n with fraction := ['.', '0'] }, ?_, h.withPoint, List.cons_ne_nil _ _⟩
    rw [NumberText.text, NumberText.text, hnil, List.append_nil,
      Source.takeWhile_append_of_head hwhole hexponent,
      Source.dropWhile_append_of_head hwhole hexponent]
    simp

namespace Binary64

/-- The shortest text of a float is a number, in either notation. -/
theorem exists_shortText (x : Binary64) :
    ∃ n : NumberText, n.text = x.shortText ∧ IsNumber n := by
  obtain ⟨n, htext, hn, hexponent, hfraction⟩ := x.shortest.exists_positional
  simp only [shortText]
  split
  · split
    · next hx =>
      refine ⟨{ n with fraction := ['.', '0'] }, ?_, hn.withPoint⟩
      rw [← htext, NumberText.text, NumberText.text, hexponent, hfraction.mpr hx]
      simp
    · exact ⟨n, htext, hn⟩
  · exact x.shortest.exists_scientific

/-- The shortest text of a float with a point in it is a number of kind float. -/
theorem exists_pointed_shortText (x : Binary64) :
    ∃ n : NumberText, n.text = pointed x.shortText ∧ n.kind = .float ∧ IsNumber n := by
  obtain ⟨n, htext, hn⟩ := x.exists_shortText
  obtain ⟨m, hpointed, hm, hfraction⟩ := hn.exists_pointed
  refine ⟨m, htext ▸ hpointed, ?_, hm⟩
  unfold NumberText.kind
  rw [if_neg fun h => hfraction h.1]

end Binary64

end QueryDoc
