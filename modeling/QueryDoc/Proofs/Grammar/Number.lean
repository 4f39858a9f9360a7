import QueryDoc.Grammar.Token
import QueryDoc.Proofs.Source.Cut

/-!
# QueryDoc.Proofs.Grammar.Number

Numbers of the grammar as source text. A number that the grammar accepts is a whole part, a
fraction and an exponent (`NumberParts`), and these are the parts that the source text is
cut into at a character that goes on with none of them (`NumberParts.isRegular`).
-/

namespace QueryDoc.Grammar

open Source (NumberText)

/-! ## The last character of a kind -/

theorem exists_of_splitAtLast_eq_some {p : Char → Bool} {cs front back : List Char}
    (h : splitAtLast p cs = some (front, back)) :
    ∃ c, p c = true ∧ cs = front ++ c :: back := by
  induction cs generalizing front with
  | nil => contradiction
  | cons c cs ih =>
    cases hs : splitAtLast p cs with
    | some s =>
      simp only [splitAtLast, hs, Option.some.injEq, Prod.mk.injEq] at h
      obtain ⟨rfl, rfl⟩ := h
      obtain ⟨d, hd, happ⟩ := ih hs
      exact ⟨d, hd, by rw [happ, List.cons_append]⟩
    | none =>
      simp only [splitAtLast, hs] at h
      split at h
      · next hc =>
        cases h
        exact ⟨c, hc, rfl⟩
      · contradiction

/-! ## The parts of a number -/

/-- The whole part of a number behind its sign, if it has one. -/
structure IsWhole (whole : List Char) : Prop where
  int : isInt whole = true
  start : ∃ c ∈ whole.head?, c = '-' ∨ c.isDigit = true

/-- The parts of a number that the grammar accepts. -/
structure NumberParts (n : NumberText) : Prop where
  whole : IsWhole n.whole
  fraction : n.fraction = [] ∨ ∃ ds, n.fraction = '.' :: ds ∧ isFraction ds = true
  exponent : n.exponent = [] ∨
    ∃ c ds, n.exponent = c :: ds ∧ isExponentMark c = true ∧ isExponent ds = true

/-- The kind of token that a number in source text is. -/
def NumberParts.kindOf (n : NumberText) : TokenKind :=
  if n.fraction = [] ∧ n.exponent = [] then .int else .float

/-- The whole part begins like the number: a point or an exponent cannot stand in front. -/
theorem isWhole_of_start {whole back : List Char}
    (hstart : ∃ c ∈ (whole ++ back).head?, c = '-' ∨ c.isDigit = true) (h : isInt whole = true) :
    IsWhole whole := by
  refine ⟨h, ?_⟩
  cases whole with
  | nil => contradiction
  | cons c cs => exact hstart

theorem exists_parts_of_numberKind? {text : List Char} {kind : TokenKind}
    (hstart : ∃ c ∈ text.head?, c = '-' ∨ c.isDigit = true) (h : numberKind? text = some kind) :
    ∃ n : NumberText, n.text = text ∧ NumberParts n ∧ kind = NumberParts.kindOf n := by
  unfold numberKind? at h
  split at h
  · split at h
    · obtain ⟨hi, ⟨⟩⟩ := Option.ite_none_right_eq_some.mp h
      refine ⟨⟨text, [], []⟩, by simp [NumberText.text], ⟨?_, .inl rfl, .inl rfl⟩, rfl⟩
      exact isWhole_of_start ((List.append_nil text).symm ▸ hstart) hi
    · next whole exponent hmark =>
      obtain ⟨hi, ⟨⟩⟩ := Option.ite_none_right_eq_some.mp h
      obtain ⟨hwhole, hexponent⟩ := Bool.and_eq_true _ _ ▸ hi
      obtain ⟨e, he, rfl⟩ := exists_of_splitAtLast_eq_some hmark
      exact ⟨⟨whole, [], e :: exponent⟩, by simp [NumberText.text],
        ⟨isWhole_of_start hstart hwhole, .inl rfl, .inr ⟨e, exponent, rfl, he, hexponent⟩⟩, rfl⟩
  · next whole back hdot =>
    obtain ⟨c, hc, rfl⟩ := exists_of_splitAtLast_eq_some hdot
    obtain rfl : c = '.' := eq_of_beq hc
    split at h
    · obtain ⟨hi, ⟨⟩⟩ := Option.ite_none_right_eq_some.mp h
      obtain ⟨hwhole, hfraction⟩ := Bool.and_eq_true _ _ ▸ hi
      exact ⟨⟨whole, '.' :: back, []⟩, by simp [NumberText.text],
        ⟨isWhole_of_start hstart hwhole, .inr ⟨back, rfl, hfraction⟩, .inl rfl⟩, rfl⟩
    · next fraction exponent hmark =>
      obtain ⟨hi, ⟨⟩⟩ := Option.ite_none_right_eq_some.mp h
      simp only [Bool.and_eq_true] at hi
      obtain ⟨⟨hwhole, hfraction⟩, hexponent⟩ := hi
      obtain ⟨e, he, rfl⟩ := exists_of_splitAtLast_eq_some hmark
      exact ⟨⟨whole, '.' :: fraction, e :: exponent⟩, by simp [NumberText.text],
        ⟨isWhole_of_start hstart hwhole, .inr ⟨fraction, rfl, hfraction⟩,
          .inr ⟨e, exponent, rfl, he, hexponent⟩⟩, rfl⟩

theorem IsWhole.digits {whole : List Char} (h : IsWhole whole) :
    ∃ minus ds, whole = minus ++ ds ∧ (minus = [] ∨ minus = ['-']) ∧
      ∀ c ∈ ds, c.isDigit = true := by
  obtain ⟨c, hc, hstart⟩ := h.start
  obtain ⟨ds, rfl⟩ := List.head?_eq_some_iff.mp hc
  have hall : ∀ d ∈ ds, d.isDigit = true := by
    have hint := h.int
    unfold isInt at hint
    split at hint
    all_goals simp_all
  cases hstart with
  | inl hm => exact ⟨['-'], ds, by rw [hm]; rfl, Or.inr rfl, hall⟩
  | inr hd =>
    refine ⟨[], c :: ds, rfl, Or.inl rfl, fun d hmem => ?_⟩
    cases List.mem_cons.mp hmem with
    | inl heq => exact heq ▸ hd
    | inr hmem => exact hall d hmem

theorem isExponent_digits {exponent : List Char} (h : isExponent exponent = true) :
    ∃ sign ds, exponent = sign ++ ds ∧ (sign = [] ∨ sign = ['+'] ∨ sign = ['-']) ∧
      ∀ c ∈ ds, c.isDigit = true := by
  cases exponent with
  | nil => contradiction
  | cons c ds =>
    simp only [isExponent, Bool.and_eq_true, Bool.or_eq_true, beq_iff_eq, decide_eq_true_eq,
      List.all_eq_true] at h
    obtain ⟨(hc | hc) | hc, hds⟩ := h
    · exact ⟨['+'], ds, by rw [hc]; rfl, Or.inr (Or.inl rfl), hds⟩
    · exact ⟨['-'], ds, by rw [hc]; rfl, Or.inr (Or.inr rfl), hds⟩
    · refine ⟨[], c :: ds, rfl, Or.inl rfl, fun d hd => ?_⟩
      cases List.mem_cons.mp hd with
      | inl heq =>
        subst heq
        simp only [Char.isDigit, Bool.and_eq_true, decide_eq_true_eq]
        exact ⟨Nat.le_trans (by decide) hc.1, Nat.le_trans hc.2 (by decide)⟩
      | inr hmem => exact hds d hmem

/-- The parts that the grammar accepts are those that source text is cut into. -/
theorem NumberParts.isRegular {n : NumberText} (h : NumberParts n) : n.IsRegular where
  whole := h.whole.digits
  fraction := by
    cases h.fraction with
    | inl hf => exact Or.inl hf
    | inr hf =>
      obtain ⟨ds, hf, hds⟩ := hf
      simp only [isFraction, Bool.and_eq_true, List.all_eq_true] at hds
      exact Or.inr ⟨ds, hf, hds.2⟩
  exponent := by
    cases h.exponent with
    | inl he => exact Or.inl he
    | inr he =>
      obtain ⟨c, es, he, hc, hes⟩ := he
      obtain ⟨sign, ds, rfl, hsign, hds⟩ := isExponent_digits hes
      simp only [isExponentMark, Bool.or_eq_true, beq_iff_eq] at hc
      exact Or.inr ⟨c, sign, ds, he, hc, hsign, hds⟩

end QueryDoc.Grammar
