import Mathlib
import QueryDoc.Character

/-!
# QueryDoc.Proofs.Character

Characters of names, and the classes of characters that exclude each other. What cuts a text
asks for one class after the other; as what starts a name, a number or a mark starts nothing
else (`isNameStart_cases`, `isNumeric_cases`, `isMark_cases`), the order is of no account.
-/

namespace QueryDoc

/-! ## Names -/

theorem isNameStart_digit {c : Char} (h : isNameStart c = true) : c.isDigit = false := by
  rcases Bool.or_eq_true _ _ ▸ h with h | h
  · rw [eq_of_beq h]
    rfl
  · simp only [Char.isAlpha, Char.isUpper, Char.isLower, Char.isDigit, Bool.or_eq_true,
      Bool.and_eq_true, decide_eq_true_eq, Bool.and_eq_false_iff, decide_eq_false_iff_not,
      ge_iff_le, UInt32.le_iff_toNat_le] at *
    simp at *
    omega

theorem isNameChar_digit {c : Char} (h : c.isDigit = true) : isNameChar c = true := by
  simp [isNameChar, Char.isAlphanum, h]

/-- What goes on with a name starts one, or is a digit. -/
theorem isNameStart_or_isDigit {c : Char} (h : isNameChar c = true) :
    isNameStart c = true ∨ c.isDigit = true := by
  simp only [isNameChar, isNameStart, Char.isAlphanum, Bool.or_eq_true] at *
  grind

theorem isName_cons {c : Char} {cs : List Char} :
    isName (c :: cs) = true ↔ isNameStart c = true ∧ ∀ d ∈ cs, isNameChar d = true := by
  rw [isName, Bool.and_eq_true, List.all_eq_true]

theorem forall_isNameChar_of_isName {cs : List Char} (h : isName cs = true) :
    ∀ c ∈ cs, isNameChar c = true := by
  cases cs with
  | nil => contradiction
  | cons c cs =>
    obtain ⟨hc, hcs⟩ := isName_cons.mp h
    exact List.forall_mem_cons.mpr ⟨isNameChar_of_isNameStart hc, hcs⟩

theorem isName_append {cs ds : List Char} (h : isName cs = true)
    (hd : ∀ c ∈ ds, isNameChar c = true) : isName (cs ++ ds) = true := by
  cases cs with
  | nil => contradiction
  | cons c cs =>
    obtain ⟨hc, hcs⟩ := isName_cons.mp h
    exact isName_cons.mpr ⟨hc, List.forall_mem_append.mpr ⟨hcs, hd⟩⟩

theorem ne_nil_of_isName {cs : List Char} (h : isName cs = true) : cs ≠ [] := by
  rintro rfl
  contradiction

/-! ## Classes -/

theorem mem_of_isIgnorable {c : Char} (h : isIgnorable c = true) :
    c ∈ [' ', '\t', '\n', '\r', ',', '\ufeff'] := by
  simpa [isIgnorable, or_assoc] using h

/-- A class that has none of the characters without meaning in it excludes them. -/
theorem isIgnorable_eq_false {p : Char → Bool} {c : Char} (h : p c = true)
    (hp : [' ', '\t', '\n', '\r', ',', '\ufeff'].all (fun d => !p d) = true) :
    isIgnorable c = false := by
  refine Bool.eq_false_iff.mpr fun hc => ?_
  have hnot := List.all_eq_true.mp hp c (mem_of_isIgnorable hc)
  rw [h] at hnot
  contradiction

/-- What starts a name starts nothing else. -/
theorem isNameStart_cases {c : Char} (h : isNameStart c = true) :
    isIgnorable c = false ∧ c ≠ '#' ∧ c ≠ '"' ∧ c ≠ '.' ∧ ¬ (c = '-' ∨ c.isDigit = true) := by
  have hne {d : Char} (hd : ¬ isNameStart d = true) : c ≠ d := fun e => hd (e ▸ h)
  refine ⟨isIgnorable_eq_false h (by decide), hne (by decide), hne (by decide), hne (by decide), ?_⟩
  rw [isNameStart_digit h]
  exact not_or.mpr ⟨hne (by decide), Bool.false_ne_true⟩

/-- A digit or a minus sign starts nothing but a number. -/
theorem isNumeric_cases {c : Char} (h : c = '-' ∨ c.isDigit = true) :
    isIgnorable c = false ∧ c ≠ '#' ∧ c ≠ '"' ∧ c ≠ '.' := by
  have hne {d : Char} (hd : ¬ (d = '-' ∨ d.isDigit = true)) : c ≠ d := fun e => hd (e ▸ h)
  exact ⟨isIgnorable_eq_false (p := fun c => decide (c = '-' ∨ c.isDigit = true))
    (decide_eq_true h) (by decide), hne (by decide), hne (by decide), hne (by decide)⟩

/-- What holds of each mark. -/
theorem of_isMark {p : Char → Bool} (hp : "!$&():=@[]\x7b|\x7d".toList.all p = true) {c : Char}
    (h : isMark c = true) : p c = true :=
  List.all_eq_true.mp hp c (List.contains_iff_mem.mp h)

/-- A mark starts nothing but itself. -/
theorem isMark_cases {c : Char} (h : isMark c = true) :
    isIgnorable c = false ∧ c ≠ '#' ∧ c ≠ '"' ∧ c ≠ '.' ∧ ¬ (c = '-' ∨ c.isDigit = true) ∧
      isNameStart c = false :=
  of_decide_eq_true (of_isMark (p := fun c => decide (isIgnorable c = false ∧ c ≠ '#' ∧ c ≠ '"' ∧
    c ≠ '.' ∧ ¬ (c = '-' ∨ c.isDigit = true) ∧ isNameStart c = false)) (by decide) h)

/-- Characters that start no blank, no comment and no token. -/
structure IsStray (c : Char) : Prop where
  ignorable : isIgnorable c = false
  hash : c ≠ '#'
  quote : c ≠ '"'
  dot : c ≠ '.'
  number : ¬ (c = '-' ∨ c.isDigit = true)
  name : isNameStart c = false
  mark : isMark c = false

end QueryDoc
