import QueryDoc.Grammar.Printer
import QueryDoc.Proofs.Grammar.Restoring

/-!
# QueryDoc.Proofs.Grammar.Strings

The strings that are printed: each is one token, whatever its characters are
(`isExact_printedToken`), and stays one in front of every stop (`isSolid_stringText`).
-/

namespace QueryDoc.Grammar

/-! ## Characters that are written with escapes -/

/-- Digits may stand between quotes as they are. -/
theorem isInner_of_isDigit {c : Char} (h : c.isDigit = true) : isInner c = true := by
  have hne {d : Char} (hd : d.isDigit = false) : c ≠ d := by
    rintro rfl
    rw [hd] at h
    contradiction
  simp [isInner, isLineEnd, hne (d := '"') rfl, hne (d := '\\') rfl, hne (d := '\n') rfl,
    hne (d := '\r') rfl]

/-- Only digits are written for a code point. -/
theorem isDigit_of_mem_fourDigits {n : Nat} {c : Char} (h : c ∈ QuotedString.fourDigits n) :
    c.isDigit = true := by
  rcases List.mem_append.mp h with hzero | hdigit
  · rw [List.eq_of_mem_replicate hzero]
    rfl
  · exact Decimal.isDigit_of_mem_digits hdigit

/-- The letters that are written behind a backslash. -/
def escapeLetters : List Char := ['r', 'n', 't', '"', '\\']

/-- No letter behind a backslash is a line end or begins a code point, and each stands for a plain
character. -/
theorem escapeLetters_cases {letter : Char} (h : letter ∈ escapeLetters) :
    letter ≠ '\n' ∧ letter ≠ '\r' ∧ letter ≠ 'u' ∧
      (QuotedString.escapedChar? letter).any QuotedString.isPlain = true := by
  have hall : escapeLetters.all (fun letter =>
      decide (letter ≠ '\n' ∧ letter ≠ '\r' ∧ letter ≠ 'u' ∧
        (QuotedString.escapedChar? letter).any QuotedString.isPlain = true)) = true := by
    decide
  exact of_decide_eq_true (List.all_eq_true.mp hall letter h)

/-- How a character is written between quotes. -/
theorem encodeChar_cases (c : Char) :
    (∃ letter ∈ escapeLetters, QuotedString.escapedChar? letter = some c ∧
        QuotedString.encodeChar c = ['\\', letter]) ∨
      (QuotedString.encodeChar c = [c] ∧ isInner c = true ∧ QuotedString.isPlain c = true) ∨
      QuotedString.encodeChar c = '\\' :: 'u' :: QuotedString.fourDigits c.toNat ∧
        QuotedString.isPlain c = false := by
  unfold QuotedString.encodeChar
  split
  · next h => exact .inl ⟨'r', by simp [escapeLetters], by rw [h]; rfl, rfl⟩
  next hreturn =>
  split
  · next h => exact .inl ⟨'n', by simp [escapeLetters], by rw [h]; rfl, rfl⟩
  next hline =>
  split
  · next h => exact .inl ⟨'t', by simp [escapeLetters], by rw [h]; rfl, rfl⟩
  split
  · next h => exact .inl ⟨'"', by simp [escapeLetters], by rw [h]; rfl, rfl⟩
  next hquote =>
  split
  · next h => exact .inl ⟨'\\', by simp [escapeLetters], by rw [h]; rfl, rfl⟩
  next hback =>
  split
  · next hplain =>
    exact .inr (.inl ⟨rfl, by simp [isInner, isLineEnd, hquote, hback, hline, hreturn], hplain⟩)
  · next hodd => exact .inr (.inr ⟨rfl, Bool.not_eq_true _ ▸ hodd⟩)

theorem encode_cons (c : Char) (cs : List Char) :
    QuotedString.encode (c :: cs) = QuotedString.encodeChar c ++ QuotedString.encode cs := rfl

/-- A string between quotes is cut off as a whole: its quotes have a backslash in front. -/
theorem splitString?_encode (cs : List Char) :
    splitString? (QuotedString.encode cs ++ ['"']) =
      some (QuotedString.encode cs ++ ['"'], []) := by
  induction cs with
  | nil => exact splitString?_quote
  | cons c cs ih =>
    rw [encode_cons, List.append_assoc]
    obtain ⟨letter, hletter, -, hc⟩ | ⟨hc, hinner, -⟩ | ⟨hc, -⟩ := encodeChar_cases c
    · simp [hc, splitString?, (escapeLetters_cases hletter).1, ih]
    · rw [hc]
      exact splitString?_inner (by simpa using hinner) ih
    · have hdigits := splitString?_inner (fun d hd => isInner_of_isDigit
        (isDigit_of_mem_fourDigits (n := c.toNat) hd)) ih
      simp [hc, splitString?, hdigits]

/-- A carriage return is written with an escape, so that both cuts agree on printed strings. -/
theorem return_not_mem_encode (cs : List Char) : '\r' ∉ QuotedString.encode cs := by
  induction cs with
  | nil => exact List.not_mem_nil
  | cons c cs ih =>
    rw [encode_cons, List.mem_append]
    rintro (hmem | hmem)
    · obtain ⟨letter, hletter, -, hc⟩ | ⟨hc, hinner, -⟩ | ⟨hc, -⟩ := encodeChar_cases c
      · simp [hc, (escapeLetters_cases hletter).2.1.symm] at hmem
      · obtain rfl : '\r' = c := by simpa [hc] using hmem
        exact absurd hinner (by decide)
      · have hdigit : '\r' ∈ QuotedString.fourDigits c.toNat := by simpa [hc] using hmem
        exact absurd (isDigit_of_mem_fourDigits hdigit) (by decide)
    · exact ih hmem

/-- A string between quotes does not begin like a block string. -/
theorem head_encode_ne (cs : List Char) : (QuotedString.encode cs).head? ≠ some '"' := by
  cases cs with
  | nil => exact nofun
  | cons c cs =>
    rw [encode_cons]
    obtain ⟨letter, -, -, hc⟩ | ⟨hc, hinner, -⟩ | ⟨hc, -⟩ := encodeChar_cases c
    · simp [hc]
    · simp [hc, (isInner_ne hinner).1]
    · simp [hc]

/-! ## Between triple quotes -/

/-- A character that begins neither three quotes nor escaped ones is taken as it is. -/
theorem splitBlockString?_of_ne {c : Char} {cs : List Char} {s : List Char × List Char}
    (h : splitBlockString? cs = some s) (hback : ∀ x, c = '\\' → cs ≠ '"' :: '"' :: '"' :: x)
    (hquote : ∀ x, c = '"' → cs ≠ '"' :: '"' :: x) :
    splitBlockString? (c :: cs) = some (c :: s.1, s.2) := by
  rw [splitBlockString?, h]
  · rfl
  · exact hback
  · exact hquote

/-- A quote in front of an escaped text stands in the text itself, and no triple quotes do. -/
theorem exists_of_escape_append {cs rest x : List Char} (hr : rest.head? ≠ some '"')
    (h : BlockString.escape cs ++ rest = '"' :: x) :
    ∃ ds, cs = '"' :: ds ∧ BlockString.escape ds ++ rest = x ∧ ∀ y, ds ≠ '"' :: '"' :: y := by
  cases cs with
  | nil =>
    rw [BlockString.escape, List.nil_append] at h
    simp [h] at hr
  | cons c cs =>
    unfold BlockString.escape at h
    split at h
    · simp at h
    · next hquotes heq =>
      cases heq
      obtain ⟨rfl, hx⟩ := List.cons.inj h
      exact ⟨cs, rfl, hx, fun y hy => hquotes y rfl hy⟩
    · contradiction

/-- There are no triple quotes in front of an escaped text. -/
theorem escape_append_ne {cs rest : List Char} (hr : rest.head? ≠ some '"') (x : List Char) :
    BlockString.escape cs ++ rest ≠ '"' :: '"' :: '"' :: x := by
  intro h
  obtain ⟨ds, rfl, hds, hquotes⟩ := exists_of_escape_append hr h
  obtain ⟨es, rfl, hes, -⟩ := exists_of_escape_append hr hds
  obtain ⟨fs, rfl, -, -⟩ := exists_of_escape_append hr hes
  exact hquotes fs rfl

/-- Three quotes in a row are written with a backslash, so that they do not end the block string. -/
theorem splitBlockString?_escape (cs : List Char) {rest : List Char} {s : List Char × List Char}
    (h : splitBlockString? rest = some s) (hr : rest.head? ≠ some '"') :
    splitBlockString? (BlockString.escape cs ++ rest) =
      some (BlockString.escape cs ++ s.1, s.2) := by
  fun_induction BlockString.escape cs with
  | case1 cs ih => simp [splitBlockString?, ih]
  | case2 c cs hquotes ih =>
    refine splitBlockString?_of_ne ih (fun x _ => escape_append_ne hr x) ?_
    rintro x rfl hx
    have hne : BlockString.escape ('"' :: cs) ++ rest ≠ '"' :: '"' :: '"' :: x :=
      escape_append_ne hr x
    refine hne ?_
    rw [BlockString.escape, List.cons_append, hx]
    exact hquotes
  | case3 => exact h

/-- A margin is taken as it is. -/
theorem splitBlockString?_blanks {body : List Char} (hbody : ∀ c ∈ body, c = ' ')
    {cs : List Char} {s : List Char × List Char} (h : splitBlockString? cs = some s) :
    splitBlockString? (body ++ cs) = some (body ++ s.1, s.2) := by
  induction body with
  | nil => exact h
  | cons c body ih =>
    obtain ⟨rfl, hrest⟩ := List.forall_mem_cons.mp hbody
    exact splitBlockString?_of_ne (ih hrest) (by simp) (by simp)

/-- A line end is taken as it is. -/
theorem splitBlockString?_line {cs : List Char} {s : List Char × List Char}
    (h : splitBlockString? cs = some s) :
    splitBlockString? ('\n' :: cs) = some ('\n' :: s.1, s.2) :=
  splitBlockString?_of_ne h (by simp) (by simp)

/-- A block string is cut off as a whole, with all of its lines and margins. -/
theorem splitBlockString?_encode {margin outerMargin : List Char} (hm : ∀ c ∈ margin, c = ' ')
    (ho : ∀ c ∈ outerMargin, c = ' ') (cs : List Char) :
    splitBlockString? (BlockString.encode margin outerMargin cs ++ ['"', '"', '"']) =
      some (BlockString.encode margin outerMargin cs ++ ['"', '"', '"'], []) := by
  have hclosing : splitBlockString? ['"', '"', '"'] = some (['"', '"', '"'], []) := by
    simp [splitBlockString?]
  have hlines : ∀ ls : List (List Char),
      splitBlockString? ((ls.flatMap fun line =>
        (if isBlankLine line then [] else margin ++ BlockString.escape line) ++ ['\n']) ++
          (outerMargin ++ ['"', '"', '"'])) =
        some ((ls.flatMap fun line =>
          (if isBlankLine line then [] else margin ++ BlockString.escape line) ++ ['\n']) ++
            (outerMargin ++ ['"', '"', '"']), []) := by
    intro ls
    induction ls with
    | nil => exact splitBlockString?_blanks ho hclosing
    | cons line ls ih =>
      rw [List.flatMap_cons, List.append_assoc, List.append_assoc]
      have hrest := splitBlockString?_line ih
      split
      · exact hrest
      · rw [List.append_assoc]
        exact splitBlockString?_blanks hm (splitBlockString?_escape line hrest (by simp))
  rw [BlockString.encode, List.append_assoc, List.cons_append]
  exact splitBlockString?_line (hlines (lines cs))

/-! ## Printed strings -/

section Printed

variable (indent depth : Nat) {s : String}

/-- A string with a line feed whose characters all stand for themselves is printed between triple
quotes. -/
theorem stringText_block (h : isBlockText s.toList = true) :
    (stringText indent depth s).toList = '"' :: '"' :: '"' ::
      (BlockString.encode (margin indent (depth + 1)) (margin indent depth) s.toList ++
        ['"', '"', '"']) := by
  simp [stringText, h]

/-- Every other string is printed between quotes. -/
theorem stringText_quoted (h : isBlockText s.toList = false) :
    (stringText indent depth s).toList = '"' :: (QuotedString.encode s.toList ++ ['"']) := by
  simp [stringText, h]

/-- A string as a token of the strict cut, as it is printed. -/
def printedToken (s : String) : Token :=
  ⟨if isBlockText s.toList then .blockString else .string, (stringText indent depth s).toList⟩

/-- What is printed for a string is one token of the grammar, whatever the string is. -/
theorem isExact_printedToken (s : String) : (printedToken indent depth s).IsExact := by
  have hmargin : ∀ depth, ∀ c ∈ margin indent depth, c = ' ' := fun depth c hc =>
    List.eq_of_mem_replicate hc
  cases h : isBlockText s.toList with
  | true =>
    have hblock := splitBlockString?_encode (hmargin (depth + 1)) (hmargin depth) s.toList
    refine ⟨'"', _, stringText_block indent depth h, ?_⟩
    simp [printedToken, splitToken?, stringText_block, h, hblock]
  | false =>
    have hquoted := isExact_quoted (head_encode_ne s.toList) (splitString?_encode s.toList)
    simpa [printedToken, stringText_quoted, h] using hquoted

/-- Both forms are strings for the lenient cut. -/
theorem toSource_printedToken (s : String) :
    (printedToken indent depth s).toSource = ⟨.string, (stringText indent depth s).toList⟩ := by
  cases h : isBlockText s.toList <;> simp [printedToken, h, Token.toSource, TokenKind.toSource]

/-- A printed string stays one token in front of every stop. -/
theorem isSolid_stringText (s : String) :
    IsSolid ⟨.string, (stringText indent depth s).toList⟩ := by
  rw [← toSource_printedToken]
  refine (isExact_printedToken indent depth s).isSolid ?_
  rintro ⟨hk, hreturn⟩
  cases h : isBlockText s.toList with
  | true => simp [printedToken, h] at hk
  | false =>
    rw [printedToken, stringText_quoted indent depth h, List.tail_cons,
      hasBareReturn_of_not_mem (by simp [return_not_mem_encode])] at hreturn
    contradiction

end Printed

/-! ## Strings without escapes -/

theorem encodeChar_bare {c : Char} (h : isBare c = true) : QuotedString.encodeChar c = [c] := by
  obtain ⟨hquote, hback, hline, hreturn⟩ := isBare_ne h
  simp only [isBare, Bool.and_eq_true] at h
  have hplain : QuotedString.isPlain c = true := by
    rw [QuotedString.isPlain, Bool.or_eq_true, Bool.and_eq_true]
    exact Or.inr h.1.1
  have htab : c ≠ '\t' := by
    rintro rfl
    exact absurd h.1.1.1 (by decide)
  unfold QuotedString.encodeChar
  rw [if_neg hreturn, if_neg hline, if_neg htab, if_neg hquote, if_neg hback, if_pos hplain]

/-- Bare characters are printed as they are. -/
theorem encode_bare {cs : List Char} (h : ∀ c ∈ cs, isBare c = true) :
    QuotedString.encode cs = cs := by
  induction cs with
  | nil => rfl
  | cons c cs ih =>
    obtain ⟨hc, hcs⟩ := List.forall_mem_cons.mp h
    rw [QuotedString.encode, List.flatMap_cons, encodeChar_bare hc]
    exact congrArg (c :: ·) (ih hcs)

/-- Bare characters are on one line. -/
theorem isBlockText_bare {cs : List Char} (h : ∀ c ∈ cs, isBare c = true) :
    isBlockText cs = false := by
  have hline : cs.contains '\n' = false := by
    rw [Bool.eq_false_iff, ne_eq, List.contains_iff_mem]
    exact fun hmem => (isBare_ne (h _ hmem)).2.2.1 rfl
  rw [isBlockText, hline, Bool.false_and]

/-- A string whose characters are bare is printed as it is. -/
theorem stringText_bare {s : String} (h : ∀ c ∈ s.toList, isBare c = true) (indent depth : Nat) :
    (stringText indent depth s).toList = (Terminal.string s).spelling := by
  rw [stringText, isBlockText_bare h, encode_bare h]
  simp [Terminal.spelling]

end QueryDoc.Grammar
