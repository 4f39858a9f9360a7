import QueryDoc.Proofs.Grammar.Strings

/-!
# QueryDoc.Proofs.Grammar.Reprinting

Strings that are printed and read again. `reprinted` is what becomes of one, and
`reprinted_eq_self_iff` says which strings stay what they are.
-/

namespace QueryDoc.Grammar

/-! ## Between quotes -/

/-- What a character is read as after it has been printed between quotes. The code point of
one that is not plain is printed in decimal, and the first four digits are read as a
hexadecimal number. -/
def reprintedChar (c : Char) : List Char :=
  if QuotedString.isPlain c then [c]
  else
    let digits := QuotedString.fourDigits c.toNat
    (QuotedString.unicodeChar? (digits.take 4)).toList ++ digits.drop 4

/-- At least four digits are written behind `\u`, however large the code point is. -/
theorem exists_fourDigits (n : Nat) :
    ∃ a b c d ds, QuotedString.fourDigits n = a :: b :: c :: d :: ds := by
  have hlen : 4 ≤ (QuotedString.fourDigits n).length := by
    simp only [QuotedString.fourDigits, List.length_append, List.length_replicate]
    omega
  rcases h : QuotedString.fourDigits n with _ | ⟨a, _ | ⟨b, _ | ⟨c, _ | ⟨d, ds⟩⟩⟩⟩ <;> simp_all

theorem exists_hexValue? {c : Char} (h : c.isDigit = true) : ∃ v ≤ 9, hexValue? c = some v := by
  refine ⟨c.toNat - '0'.toNat, ?_, by simp [hexValue?, h]⟩
  simp only [Char.isDigit, Bool.and_eq_true, decide_eq_true_eq] at h
  have hc : c.toNat ≤ '9'.toNat := h.2
  have hnine : '9'.toNat - '0'.toNat = 9 := by decide
  omega

/-- Four decimal digits give a character: as a hexadecimal number they are below the
surrogates. -/
theorem exists_unicodeChar? {a b c d : Char} (h : ∀ x ∈ [a, b, c, d], x.isDigit = true) :
    ∃ x, QuotedString.unicodeChar? [a, b, c, d] = some x := by
  simp only [List.mem_cons, List.not_mem_nil, or_false, forall_eq_or_imp, forall_eq] at h
  obtain ⟨ha, hb, hc, hd⟩ := h
  obtain ⟨va, hva, ha'⟩ := exists_hexValue? ha
  obtain ⟨vb, hvb, hb'⟩ := exists_hexValue? hb
  obtain ⟨vc, hvc, hc'⟩ := exists_hexValue? hc
  obtain ⟨vd, hvd, hd'⟩ := exists_hexValue? hd
  have hplus : a ≠ '+' := by
    rintro rfl
    contradiction
  have hnumber : QuotedString.hexNumber? 0 [a, b, c, d] =
      some (16 * (16 * (16 * va + vb) + vc) + vd) := by
    simp [QuotedString.hexNumber?, ha', hb', hc', hd']
  have hvalid : (16 * (16 * (16 * va + vb) + vc) + vd).isValidChar := by
    left
    omega
  refine ⟨Char.ofNatAux _ hvalid, ?_⟩
  unfold QuotedString.unicodeChar?
  split
  · next heq => exact absurd (List.cons.inj heq).1 hplus
  · rw [hnumber, Option.bind_some, dif_pos hvalid]

/-- The digits of a code point are read as one character and the rest of them. -/
theorem exists_escapedCode (n : Nat) :
    ∃ a b c d digits x, QuotedString.fourDigits n = a :: b :: c :: d :: digits ∧
      QuotedString.unicodeChar? [a, b, c, d] = some x ∧ ∀ y ∈ digits, y.isDigit = true := by
  obtain ⟨a, b, c, d, digits, hdigits⟩ := exists_fourDigits n
  have hall : ∀ y ∈ a :: b :: c :: d :: digits, y.isDigit = true := fun y hy =>
    isDigit_of_mem_fourDigits (hdigits ▸ hy)
  obtain ⟨x, hx⟩ := exists_unicodeChar? (a := a) (b := b) (c := c) (d := d)
    fun y hy => hall y (by simp at hy ⊢; grind)
  exact ⟨a, b, c, d, digits, x, hdigits, hx, fun y hy => hall y (by simp [hy])⟩

/-- What is written for a character is read as one character, and digits beyond the fourth stand
behind it. -/
theorem decode?_encodeChar (c : Char) {cs ds : List Char}
    (h : QuotedString.decode? cs = some ds) :
    QuotedString.decode? (QuotedString.encodeChar c ++ cs) = some (reprintedChar c ++ ds) := by
  obtain ⟨letter, hletter, hescaped, hc⟩ | ⟨hc, hinner, hplain⟩ | ⟨hc, hodd⟩ := encodeChar_cases c
  · obtain ⟨-, -, hu, hplain⟩ := escapeLetters_cases hletter
    rw [hescaped, Option.any_some] at hplain
    rw [hc, reprintedChar, if_pos hplain, List.cons_append, List.singleton_append,
      QuotedString.decode?, hescaped, h]
    · rfl
    · intro a b x d rest hx
      exact absurd hx hu
  · rw [hc, reprintedChar, if_pos hplain]
    exact decode?_append (by simpa using (isInner_ne hinner).2.1) h
  · obtain ⟨a, b, x, d, digits, y, hdigits, hy, hall⟩ := exists_escapedCode c.toNat
    have hrest : QuotedString.decode? (digits ++ cs) = some (digits ++ ds) :=
      decode?_append (fun z hz => (isInner_ne (isInner_of_isDigit (hall z hz))).2.1) h
    rw [hc, reprintedChar, hdigits]
    simp [hodd, QuotedString.decode?, hy, hrest]

/-- Characters are read back one by one. -/
theorem decode?_encode (cs : List Char) :
    QuotedString.decode? (QuotedString.encode cs) = some (cs.flatMap reprintedChar) := by
  induction cs with
  | nil => rfl
  | cons c cs ih => exact decode?_encodeChar c ih

/-! ## Lines -/

/-- A line without a carriage return at its end. -/
def withoutReturn (line : List Char) : List Char :=
  if line.getLast? = some '\r' then line.dropLast else line

/-- Only the last character of a line can be the carriage return that belongs to its end. -/
theorem withoutReturn_append (front : List Char) {line : List Char} (h : line ≠ []) :
    withoutReturn (front ++ line) = front ++ withoutReturn line := by
  unfold withoutReturn
  rw [List.getLast?_append_of_ne_nil _ h]
  split
  · rw [List.dropLast_append_of_ne_nil h]
  · rfl

theorem withoutReturn_sublist (line : List Char) : (withoutReturn line).Sublist line := by
  unfold withoutReturn
  split
  · exact List.dropLast_sublist line
  · exact List.Sublist.refl line

theorem withoutReturn_cons {c : Char} (hc : c ≠ '\r') (line : List Char) :
    withoutReturn (c :: line) = c :: withoutReturn line := by
  cases line with
  | nil => simp [withoutReturn, hc]
  | cons d line => exact withoutReturn_append [c] (List.cons_ne_nil d line)

/-- A line ends at the first line feed. -/
theorem lineFeed_not_mem_lines (cs : List Char) : ∀ line ∈ lines cs, '\n' ∉ line := by
  fun_induction lines cs with
  | case1 => simp
  | case2 cs ih => simpa using ih
  | case3 cs ih => simpa using ih
  | case4 c cs hline hreturn hnil ih =>
    have hc : '\n' ≠ c := fun heq => hline heq.symm
    simpa using hc
  | case5 c cs hline hreturn line rest hlines ih =>
    have hc : '\n' ≠ c := fun heq => hline heq.symm
    rw [hlines, List.forall_mem_cons] at ih
    exact List.forall_mem_cons.mpr ⟨by simp [hc, ih.1], ih.2⟩

/-- A line in front of other lines. -/
theorem lines_append {line : List Char} (h : '\n' ∉ line) (rest : List Char) :
    lines (line ++ '\n' :: rest) = withoutReturn line :: lines rest := by
  induction line with
  | nil => rfl
  | cons c line ih =>
    rw [List.mem_cons, not_or] at h
    by_cases hreturn : c = '\r' ∧ line = []
    · obtain ⟨rfl, rfl⟩ := hreturn
      rfl
    · rw [List.cons_append, lines, ih h.2]
      · have hcons : withoutReturn (c :: line) = c :: withoutReturn line := by
          cases line with
          | nil => exact withoutReturn_cons (fun hc => hreturn ⟨hc, rfl⟩) []
          | cons d line => exact withoutReturn_append [c] (List.cons_ne_nil d line)
        rw [hcons]
      · exact fun hc => h.1 hc.symm
      · rintro x rfl hx
        cases line with
        | nil => exact hreturn ⟨rfl, rfl⟩
        | cons d line => simp [(List.cons.inj hx).1] at h

theorem lines_of_not_mem {line : List Char} (h : '\n' ∉ line) (hne : line ≠ []) :
    lines line = [line] := by
  induction line with
  | nil => contradiction
  | cons c line ih =>
    rw [List.mem_cons, not_or] at h
    rw [lines]
    · cases line with
      | nil => rfl
      | cons d line => rw [ih h.2 (List.cons_ne_nil d line)]
    · exact fun hc => h.1 hc.symm
    · rintro x - rfl
      simp at h

/-! ## Escaped lines -/

/-- Quotes are read back from a block string. -/
theorem unescape_escape (cs : List Char) : BlockString.unescape (BlockString.escape cs) = cs := by
  fun_induction BlockString.escape cs with
  | case1 cs ih => rw [BlockString.unescape, ih]
  | case2 c cs hquotes ih =>
    rw [BlockString.unescape, ih]
    intro x hc hx
    have hne : BlockString.escape cs ++ [] ≠ '"' :: '"' :: '"' :: x := escape_append_ne (by simp) x
    rw [List.append_nil, hx] at hne
    exact hne rfl
  | case3 => rfl

/-- Nothing but backslashes is added. -/
theorem mem_escape {cs : List Char} {c : Char} (h : c ∈ BlockString.escape cs) :
    c ∈ cs ∨ c = '\\' := by
  fun_induction BlockString.escape cs with
  | case1 cs ih => simp at h ⊢; grind
  | case2 d cs hquotes ih => simp at h ⊢; grind
  | case3 => contradiction

/-- The backslash stands in front of the quotes, so that a line ends as before. -/
theorem getLast?_escape (cs : List Char) : (BlockString.escape cs).getLast? = cs.getLast? := by
  fun_induction BlockString.escape cs with
  | case1 cs ih => simp [List.getLast?_cons, ih]
  | case2 c cs hquotes ih => simp [List.getLast?_cons, ih]
  | case3 => rfl

theorem escape_cons {c : Char} (hc : c ≠ '"') (cs : List Char) :
    BlockString.escape (c :: cs) = c :: BlockString.escape cs := by
  rw [BlockString.escape]
  intro x heq
  exact absurd heq hc

theorem escape_append {front : List Char} (h : '"' ∉ front) (cs : List Char) :
    BlockString.escape (front ++ cs) = front ++ BlockString.escape cs := by
  induction front with
  | nil => rfl
  | cons c front ih =>
    rw [List.mem_cons, not_or] at h
    rw [List.cons_append, escape_cons (Ne.symm h.1), ih h.2, List.cons_append]

/-- A backslash is put in front of quotes only, so that blank lines are the same. -/
theorem isBlankLine_escape (cs : List Char) :
    isBlankLine (BlockString.escape cs) = isBlankLine cs := by
  have hquote : isWhitespace '"' = false := by decide
  have hback : isWhitespace '\\' = false := by decide
  fun_induction BlockString.escape cs with
  | case1 cs ih => simp [isBlankLine, hquote, hback]
  | case2 c cs hquotes ih =>
    simp only [isBlankLine, List.all_cons] at ih ⊢
    rw [ih]
  | case3 => rfl

/-- Backslashes leave the indentation alone. -/
theorem takeWhile_escape (cs : List Char) :
    (BlockString.escape cs).takeWhile isWhitespace = cs.takeWhile isWhitespace := by
  have hquote : isWhitespace '"' = false := by decide
  have hback : isWhitespace '\\' = false := by decide
  fun_induction BlockString.escape cs with
  | case1 cs ih => simp [hquote, hback]
  | case2 c cs hquotes ih => simp [List.takeWhile_cons, ih]
  | case3 => rfl

theorem escape_concat (cs : List Char) {c : Char} (hc : c ≠ '"') :
    BlockString.escape (cs ++ [c]) = BlockString.escape cs ++ [c] := by
  fun_induction BlockString.escape cs with
  | case1 cs ih => simp [BlockString.escape, ih]
  | case2 d cs hquotes ih =>
    rw [List.cons_append, BlockString.escape, ih]
    · rfl
    · intro x hd hx
      rcases cs with _ | ⟨a, _ | ⟨b, cs⟩⟩
      · simp at hx
      · exact hc (by simpa using (List.cons.inj (List.cons.inj hx).2).1)
      · simp only [List.cons_append, List.cons.injEq] at hx
        exact hquotes cs hd (by rw [hx.1, hx.2.1])
  | case3 => exact escape_cons hc []

/-- A carriage return at the end of a line is no quote. -/
theorem withoutReturn_escape (line : List Char) :
    withoutReturn (BlockString.escape line) = BlockString.escape (withoutReturn line) := by
  unfold withoutReturn
  rw [getLast?_escape]
  split
  · next h =>
    obtain ⟨front, rfl⟩ := List.getLast?_eq_some_iff.mp h
    rw [escape_concat front (by decide), List.dropLast_concat, List.dropLast_concat]
  · rfl

/-! ## Indentation -/

theorem takeWhile_append_of_not_all {p : α → Bool} {as : List α} (h : as.all p = false)
    (bs : List α) : (as ++ bs).takeWhile p = as.takeWhile p := by
  induction as with
  | nil => contradiction
  | cons a as ih =>
    cases hp : p a with
    | false => simp [hp]
    | true =>
      rw [List.all_cons, hp, Bool.true_and] at h
      rw [List.cons_append, List.takeWhile_cons_of_pos hp, List.takeWhile_cons_of_pos hp, ih h]

/-- A carriage return is a blank itself. -/
theorem isBlankLine_withoutReturn (line : List Char) :
    isBlankLine (withoutReturn line) = isBlankLine line := by
  unfold withoutReturn
  split
  · next h =>
    obtain ⟨front, rfl⟩ := List.getLast?_eq_some_iff.mp h
    have hreturn : isWhitespace '\r' = true := by decide
    simp [isBlankLine, hreturn]
  · rfl

/-- A line that is not blank has its indentation in front of its last character. -/
theorem takeWhile_withoutReturn {line : List Char} (h : isBlankLine line = false) :
    (withoutReturn line).takeWhile isWhitespace = line.takeWhile isWhitespace := by
  rw [← isBlankLine_withoutReturn] at h
  unfold withoutReturn at h ⊢
  split
  · next hlast =>
    obtain ⟨front, rfl⟩ := List.getLast?_eq_some_iff.mp hlast
    rw [if_pos hlast, List.dropLast_concat] at h
    rw [List.dropLast_concat, takeWhile_append_of_not_all h]
  · rfl

/-- A line is indented by a part of itself. -/
theorem indentation_le (line : List Char) : BlockString.indentation line ≤ byteSize line := by
  have h := byteSize_append (line.takeWhile isWhitespace) (line.dropWhile isWhitespace)
  rw [List.takeWhile_append_dropWhile] at h
  rw [BlockString.indentation]
  omega

theorem dropBytes_zero (line : List Char) : BlockString.dropBytes 0 line = line := by
  cases line <;> rfl

theorem dropBytes_nil (n : Nat) : BlockString.dropBytes n [] = [] := by cases n <;> rfl

theorem dropBytes_cons {n : Nat} (hn : n ≠ 0) (c : Char) (line : List Char) :
    BlockString.dropBytes n (c :: line) = BlockString.dropBytes (n - c.utf8Size) line := by
  rw [BlockString.dropBytes]
  exact hn

theorem dropBytes_suffix (n : Nat) (line : List Char) : BlockString.dropBytes n line <:+ line := by
  induction line generalizing n with
  | nil => simp [dropBytes_nil]
  | cons c line ih =>
    by_cases hn : n = 0
    · subst hn
      exact List.suffix_refl _
    · rw [dropBytes_cons hn]
      exact (ih _).trans (List.suffix_cons c line)

/-- Bytes of a front are taken off the front. -/
theorem dropBytes_append {n : Nat} {front : List Char} (h : n ≤ byteSize front) (line : List Char) :
    BlockString.dropBytes n (front ++ line) = BlockString.dropBytes n front ++ line := by
  induction front generalizing n with
  | nil =>
    obtain rfl : n = 0 := Nat.le_zero.mp h
    simp [BlockString.dropBytes]
  | cons c front ih =>
    by_cases hn : n = 0
    · subst hn
      rfl
    · rw [byteSize] at h
      rw [List.cons_append, dropBytes_cons hn, dropBytes_cons hn, ih (by omega)]

/-- A margin is taken away together with what is taken away behind it. -/
theorem dropBytes_add (front : List Char) (n : Nat) (line : List Char) :
    BlockString.dropBytes (byteSize front + n) (front ++ line) =
      BlockString.dropBytes n line := by
  induction front with
  | nil => rw [byteSize, Nat.zero_add, List.nil_append]
  | cons c front ih =>
    have hpos := c.utf8Size_pos
    rw [byteSize, List.cons_append, dropBytes_cons (by omega),
      show c.utf8Size + byteSize front + n - c.utf8Size = byteSize front + n by omega, ih]

/-- Indentation holds no quotes, so that it is taken away in front of them. -/
theorem dropBytes_escape {n : Nat} {line : List Char} (h : n ≤ BlockString.indentation line) :
    BlockString.dropBytes n (BlockString.escape line) =
      BlockString.escape (BlockString.dropBytes n line) := by
  have hquote : ∀ front : List Char, front <:+ line.takeWhile isWhitespace → '"' ∉ front := by
    intro front hfront hmem
    have hblank := Source.forall_mem_takeWhile (p := isWhitespace) line _ (hfront.subset hmem)
    exact absurd hblank (by decide)
  conv => lhs; rw [← List.takeWhile_append_dropWhile (p := isWhitespace) (l := line)]
  conv => rhs; rw [← List.takeWhile_append_dropWhile (p := isWhitespace) (l := line)]
  rw [escape_append (hquote _ (List.suffix_refl _)), dropBytes_append h, dropBytes_append h,
    escape_append (hquote _ (dropBytes_suffix _ _))]

/-! ## Between triple quotes -/

/-- What a line is read as after it has been printed, if `n` is the indentation that the lines
have in common. -/
def reprintedLine (n : Nat) (line : List Char) : List Char :=
  if isBlankLine line then [] else BlockString.dropBytes n (withoutReturn line)

/-- What lines are read as after they have been printed between triple quotes. -/
def reprintedBlock (cs : List Char) : List Char :=
  let n := (BlockString.commonIndentation (lines cs)).getD 0
  List.intercalate ['\n'] (BlockString.trimBlank ((lines cs).map (reprintedLine n)))

theorem isBlankLine_of_subset {line front : List Char} (hline : isBlankLine line = true)
    (h : front ⊆ line) : isBlankLine front = true :=
  List.all_eq_true.mpr fun c hc => List.all_eq_true.mp hline c (h hc)

/-- A blank line stays blank. -/
theorem isBlankLine_unindent {line : List Char} (h : isBlankLine line = true) (n : Nat) :
    isBlankLine (BlockString.unindent n line) = true := by
  unfold BlockString.unindent
  split
  · exact isBlankLine_of_subset h (dropBytes_suffix n line).subset
  · exact h

theorem dropWhile_of_forall {p : α → Bool} {as : List α} (h : ∀ a ∈ as, p a = true) :
    as.dropWhile p = [] := by
  rw [List.dropWhile_eq_nil_iff]
  exact h

/-- Blank lines around others are dropped. -/
theorem trimBlank_append {front back : List (List Char)}
    (hf : ∀ line ∈ front, isBlankLine line = true) (hb : ∀ line ∈ back, isBlankLine line = true)
    (ls : List (List Char)) :
    BlockString.trimBlank (front ++ (ls ++ back)) = BlockString.trimBlank ls := by
  have hreverse : back.reverse.dropWhile isBlankLine = [] :=
    dropWhile_of_forall fun line hline => hb line (List.mem_reverse.mp hline)
  rw [BlockString.trimBlank, BlockString.trimBlank, List.dropWhile_append, dropWhile_of_forall hf,
    List.isEmpty_nil, if_pos rfl, List.dropWhile_append]
  split
  · next hempty =>
    rw [dropWhile_of_forall hb, List.isEmpty_iff.mp hempty]
  · rw [List.reverse_append, List.dropWhile_append, hreverse, List.isEmpty_nil, if_pos rfl]

/-- Nothing is left of blank lines alone. -/
theorem trimBlank_of_forall {ls : List (List Char)} (h : ∀ line ∈ ls, isBlankLine line = true) :
    BlockString.trimBlank ls = [] := by
  rw [BlockString.trimBlank, dropWhile_of_forall h]
  rfl

/-- The same lines are blank after quotes have been escaped. -/
theorem map_escape_trimBlank (ls : List (List Char)) :
    BlockString.trimBlank (ls.map BlockString.escape) =
      (BlockString.trimBlank ls).map BlockString.escape := by
  simp [BlockString.trimBlank, List.dropWhile_map, ← List.map_reverse, Function.comp_def,
    isBlankLine_escape]

section Margin

variable {margin outer : List Char}

/-- A line behind a margin, as it is cut out again. -/
def markedLine (margin line : List Char) : List Char :=
  if isBlankLine line then [] else margin ++ BlockString.escape (withoutReturn line)

/-- A margin leaves blank lines blank, and the others not. -/
theorem isBlankLine_markedLine (hm : ∀ c ∈ margin, c = ' ') (line : List Char) :
    isBlankLine (markedLine margin line) = isBlankLine line := by
  unfold markedLine
  split
  · next h => rw [h]; rfl
  · have hblank : margin.all isWhitespace = true :=
      List.all_eq_true.mpr fun c hc => by rw [hm c hc]; decide
    rw [isBlankLine, List.all_append, hblank, Bool.true_and, ← isBlankLine, isBlankLine_escape,
      isBlankLine_withoutReturn]

/-- The lines of a printed block string: the rest behind the opening quotes, then each line behind
the margin, then the one with the closing quotes. -/
theorem lines_encode (hm : ∀ c ∈ margin, c = ' ') (cs : List Char) :
    lines (BlockString.encode margin outer cs) =
      [] :: ((lines cs).map (markedLine margin) ++ lines outer) := by
  have hline {line : List Char} (h : '\n' ∉ line) : '\n' ∉ margin ++ BlockString.escape line := by
    rw [List.mem_append]
    rintro (hmem | hmem)
    · exact absurd (hm _ hmem) (by decide)
    · exact (mem_escape hmem).elim h (by decide)
  have hall : ∀ ls : List (List Char), (∀ line ∈ ls, '\n' ∉ line) →
      lines ((ls.flatMap fun line =>
        (if isBlankLine line then [] else margin ++ BlockString.escape line) ++ ['\n']) ++ outer) =
        ls.map (markedLine margin) ++ lines outer := by
    intro ls hls
    induction ls with
    | nil => rfl
    | cons line ls ih =>
      rw [List.forall_mem_cons] at hls
      rw [List.flatMap_cons, List.append_assoc, List.append_assoc, List.singleton_append,
        List.map_cons, List.cons_append, ← ih hls.2, markedLine]
      split
      · exact lines_append List.not_mem_nil _
      · next hblank =>
        rw [lines_append (hline hls.1), withoutReturn_append, withoutReturn_escape]
        intro hnil
        rw [← isBlankLine_escape, hnil] at hblank
        exact hblank rfl
  rw [BlockString.encode, List.cons_append, lines, hall _ (lineFeed_not_mem_lines cs)]

/-- A margin in front of all lines is added to what they have in common. -/
theorem min?_map_add (m : Nat) (ns : List Nat) :
    (ns.map (m + ·)).min? = ns.min?.map (m + ·) := by
  cases h : ns.min? with
  | none => rw [List.min?_eq_none_iff.mp h]; rfl
  | some n =>
    obtain ⟨hmem, hle⟩ := List.min?_eq_some_iff.mp h
    refine List.min?_eq_some_iff.mpr ⟨List.mem_map_of_mem hmem, fun k hk => ?_⟩
    obtain ⟨j, hj, rfl⟩ := List.mem_map.mp hk
    exact Nat.add_le_add_left (hle j hj) m

/-- A margin in front of all lines is part of their common indentation. -/
theorem commonIndentation_marked (hm : ∀ c ∈ margin, c = ' ') {back : List (List Char)}
    (hb : ∀ line ∈ back, isBlankLine line = true) (ls : List (List Char)) :
    BlockString.commonIndentation (ls.map (markedLine margin) ++ back) =
      (BlockString.commonIndentation ls).map (byteSize margin + ·) := by
  have hback : back.filter (fun line => !isBlankLine line) = [] :=
    List.filter_eq_nil_iff.mpr fun line hline => by simp [hb line hline]
  have hmargin : margin.takeWhile isWhitespace = margin :=
    List.takeWhile_eq_self_iff.mpr fun c hc => by rw [hm c hc]; decide
  have hblank : margin.all isWhitespace = true :=
    List.all_eq_true.mpr fun c hc => by rw [hm c hc]; decide
  rw [BlockString.commonIndentation, BlockString.commonIndentation, ← min?_map_add,
    List.filter_append, hback, List.append_nil, List.filter_map, List.map_map, List.map_map]
  congr 1
  simp only [Function.comp_def, isBlankLine_markedLine hm]
  refine List.map_congr_left fun line hline => ?_
  have hline : isBlankLine line = false := by simpa using (List.mem_filter.mp hline).2
  rw [markedLine, hline, if_neg Bool.false_ne_true, BlockString.indentation,
    BlockString.indentation, List.takeWhile_append, hmargin, if_pos rfl, byteSize_append,
    takeWhile_escape, takeWhile_withoutReturn hline]

/-- The common indentation is part of every line that is not blank. -/
theorem exists_commonIndentation {ls : List (List Char)} {line : List Char} (h : line ∈ ls)
    (hline : isBlankLine line = false) :
    ∃ n, BlockString.commonIndentation ls = some n ∧ n ≤ BlockString.indentation line := by
  have hmem : BlockString.indentation line ∈
      (ls.filter fun line => !isBlankLine line).map BlockString.indentation :=
    List.mem_map_of_mem (List.mem_filter.mpr ⟨h, by simp [hline]⟩)
  cases hn : BlockString.commonIndentation ls with
  | none => simp [List.min?_eq_none_iff.mp hn] at hmem
  | some n => exact ⟨n, rfl, (List.min?_eq_some_iff.mp hn).2 _ hmem⟩

/-- Without the margin and the common indentation, a line is the escaped text that it is read
as. -/
theorem unindent_markedLine {n : Nat} {line : List Char}
    (h : isBlankLine line = false → n ≤ BlockString.indentation line) :
    BlockString.unindent (byteSize margin + n) (markedLine margin line) =
      BlockString.escape (reprintedLine n line) := by
  rw [markedLine, reprintedLine]
  split
  · rw [BlockString.unindent, dropBytes_nil, ite_self]
    rfl
  · next hblank =>
    have hblank : isBlankLine line = false := by simpa using hblank
    have hle : n ≤ BlockString.indentation (withoutReturn line) := by
      rw [BlockString.indentation, takeWhile_withoutReturn hblank]
      exact h hblank
    have hsize : n ≤ byteSize (BlockString.escape (withoutReturn line)) := by
      refine Nat.le_trans ?_ (indentation_le _)
      rwa [BlockString.indentation, takeWhile_escape]
    rw [BlockString.unindent, byteSize_append, if_pos (by omega), dropBytes_add,
      dropBytes_escape hle]

/-- Blank lines have no common indentation, and nothing of them is read. -/
theorem map_markedLine_of_none {ls : List (List Char)}
    (h : BlockString.commonIndentation ls = none) :
    ls.map (markedLine margin) = ls.map fun line => BlockString.escape (reprintedLine 0 line) := by
  refine List.map_congr_left fun line hline => ?_
  cases hblank : isBlankLine line with
  | true => simp [markedLine, reprintedLine, hblank, BlockString.escape]
  | false =>
    obtain ⟨n, hsome, -⟩ := exists_commonIndentation hline hblank
    rw [h] at hsome
    contradiction

/-- Taking away the common indentation takes away the margin, and what was common before. -/
theorem map_unindent_markedLine {n : Nat} {ls : List (List Char)}
    (h : BlockString.commonIndentation ls = some n) :
    (ls.map (markedLine margin)).map (BlockString.unindent (byteSize margin + n)) =
      ls.map fun line => BlockString.escape (reprintedLine n line) := by
  rw [List.map_map]
  refine List.map_congr_left fun line hline => unindent_markedLine fun hblank => ?_
  obtain ⟨m, hsome, hle⟩ := exists_commonIndentation hline hblank
  rw [h] at hsome
  exact Option.some.inj hsome ▸ hle

/-- What stands in front of the closing quotes is no line or a blank one. -/
theorem isBlankLine_of_mem_lines (ho : ∀ c ∈ outer, c = ' ') :
    ∀ line ∈ lines outer, isBlankLine line = true := by
  cases outer with
  | nil => simp [lines]
  | cons c outer =>
    have hfeed : '\n' ∉ c :: outer := fun hmem => absurd (ho _ hmem) (by decide)
    rw [lines_of_not_mem hfeed (List.cons_ne_nil c outer), List.forall_mem_singleton]
    exact List.all_eq_true.mpr fun d hd => by rw [ho d hd]; decide

/-- The blank lines around the escaped ones are left out, and the escapes are read back. -/
theorem map_unescape_trimBlank {back : List (List Char)}
    (hb : ∀ line ∈ back, isBlankLine line = true) (n : Nat) (ls : List (List Char)) :
    (BlockString.trimBlank ([[]] ++ (ls.map (fun line =>
        BlockString.escape (reprintedLine n line)) ++ back))).map BlockString.unescape =
      BlockString.trimBlank (ls.map (reprintedLine n)) := by
  rw [trimBlank_append (by simp [isBlankLine]) hb, ← Function.comp_def BlockString.escape,
    ← List.map_map, map_escape_trimBlank, List.map_map, Function.comp_def]
  simp only [unescape_escape, List.map_id']

/-- What is read back from a printed block string has lost the indentation that its lines had in
common, the blanks on blank lines, blank lines at both ends, and carriage returns at line ends. -/
theorem decode_encode (hm : ∀ c ∈ margin, c = ' ') (ho : ∀ c ∈ outer, c = ' ') (cs : List Char) :
    BlockString.decode (BlockString.encode margin outer cs) = reprintedBlock cs := by
  have hback := isBlankLine_of_mem_lines ho
  unfold BlockString.decode reprintedBlock
  rw [lines_encode hm]
  simp only [commonIndentation_marked hm hback]
  congr 1
  cases hn : BlockString.commonIndentation (lines cs) with
  | none =>
    rw [Option.getD_none, ← map_unescape_trimBlank hback, ← map_markedLine_of_none hn]
    rfl
  | some n =>
    have hunindented : ∀ line ∈ (lines outer).map (BlockString.unindent (byteSize margin + n)),
        isBlankLine line = true := by
      intro line hline
      obtain ⟨l, hl, rfl⟩ := List.mem_map.mp hline
      exact isBlankLine_unindent (hback l hl) _
    rw [Option.getD_some, ← map_unescape_trimBlank hunindented, ← map_unindent_markedLine hn,
      ← List.map_append]
    rfl

end Margin

/-! ## Printed strings -/

/-- What a string is read as after it has been printed, wherever that is. -/
def reprinted (s : String) : String :=
  String.ofList (if isBlockText s.toList then reprintedBlock s.toList
    else s.toList.flatMap reprintedChar)

/-- Quotes are taken off both ends. -/
theorem inner_quotes (opening closing : List Char) (h : closing.length = opening.length)
    (cs : List Char) : inner opening.length (opening ++ (cs ++ closing)) = cs := by
  rw [inner, List.drop_left, List.take_append_of_le_length (by simp; omega),
    List.take_of_length_le (by simp; omega)]

/-- **Strings that are read again**: the token of a printed string is read as `reprinted` says. -/
theorem terminal?_printedToken (indent depth : Nat) (s : String) :
    (printedToken indent depth s).terminal? = some (.string (reprinted s)) := by
  have hmargin (depth : Nat) : ∀ c ∈ margin indent depth, c = ' ' := fun c hc =>
    List.eq_of_mem_replicate hc
  cases h : isBlockText s.toList with
  | true =>
    have hkind : (printedToken indent depth s).kind = .blockString := by simp [printedToken, h]
    have hinner : inner 3 (printedToken indent depth s).text =
        BlockString.encode (margin indent (depth + 1)) (margin indent depth) s.toList := by
      rw [printedToken, stringText_block indent depth h]
      exact inner_quotes ['"', '"', '"'] ['"', '"', '"'] rfl (BlockString.encode _ _ s.toList)
    simp [Token.terminal?, hkind, hinner, decode_encode (hmargin _) (hmargin _), reprinted, h]
  | false =>
    have hkind : (printedToken indent depth s).kind = .string := by simp [printedToken, h]
    have hinner : inner 1 (printedToken indent depth s).text = QuotedString.encode s.toList := by
      rw [printedToken, stringText_quoted indent depth h]
      exact inner_quotes ['"'] ['"'] rfl _
    simp [Token.terminal?, hkind, hinner, decode?_encode, reprinted, h]

/-! ## Strings that stay -/

/-- A character that is not plain is read as another one, with what is left of its digits. -/
theorem exists_reprintedChar {c : Char} (h : QuotedString.isPlain c = false) :
    ∃ x, reprintedChar c = x :: (QuotedString.fourDigits c.toNat).drop 4 := by
  obtain ⟨a, b, x, d, digits, y, hdigits, hy, -⟩ := exists_escapedCode c.toNat
  exact ⟨y, by simp [reprintedChar, h, hdigits, hy]⟩

/-- No character vanishes. -/
theorem reprintedChar_ne_nil (c : Char) : reprintedChar c ≠ [] := by
  cases h : QuotedString.isPlain c with
  | true => simp [reprintedChar, h]
  | false =>
    obtain ⟨x, hx⟩ := exists_reprintedChar h
    simp [hx]

/-- Of the characters that are not plain, ten control characters are read as they are: their
code points have one digit, which means the same in decimal and in hexadecimal. -/
theorem reprintedChar_eq_self_iff (c : Char) :
    reprintedChar c = [c] ↔ QuotedString.isPlain c = true ∨ c.toNat < 10 := by
  have hcontrol : ∀ n < 32, reprintedChar (Char.ofNat n) = [Char.ofNat n] ↔
      QuotedString.isPlain (Char.ofNat n) = true ∨ n < 10 := by decide +kernel
  cases hplain : QuotedString.isPlain c with
  | true => simp [reprintedChar, hplain]
  | false =>
    by_cases hlt : c.toNat < 32
    · have hc := hcontrol c.toNat hlt
      rwa [Char.ofNat_toNat, hplain] at hc
    · have hbig : 0xFFFF < c.toNat := by
        by_contra hle
        have hspace : ' '.toNat = 32 := rfl
        simp only [QuotedString.isPlain, Bool.or_eq_false_iff, Bool.and_eq_false_iff,
          decide_eq_false_iff_not] at hplain
        obtain hblank | hle' := hplain.2
        · exact hlt (Nat.lt_of_not_le hblank)
        · omega
      have hlen : ¬ (Nat.toDigits 10 c.toNat).length ≤ 4 := by
        rw [Nat.length_toDigits_le_iff (by decide) (by decide)]
        omega
      obtain ⟨x, hx⟩ := exists_reprintedChar hplain
      have hrest : (QuotedString.fourDigits c.toNat).drop 4 ≠ [] := by
        simp only [QuotedString.fourDigits, ne_eq, List.drop_eq_nil_iff, List.length_append]
        omega
      simp only [hx, List.cons.injEq, hrest, and_false, Bool.false_eq_true, false_or, false_iff]
      omega

/-- If every element turns into one or more, a list stays as it is only if each element does. -/
theorem flatMap_eq_self_iff {f : α → List α} (hf : ∀ a, f a ≠ []) (as : List α) :
    as.flatMap f = as ↔ ∀ a ∈ as, f a = [a] := by
  have hlen : ∀ as : List α, as.length ≤ (as.flatMap f).length := by
    intro as
    induction as with
    | nil => simp
    | cons a as ih =>
      have hpos := List.length_pos_iff.mpr (hf a)
      simp only [List.flatMap_cons, List.length_append, List.length_cons]
      omega
  induction as with
  | nil => simp
  | cons a as ih =>
    rw [List.forall_mem_cons, List.flatMap_cons]
    constructor
    · intro heq
      obtain ⟨b, bs, hb⟩ := List.exists_cons_of_ne_nil (hf a)
      rw [hb, List.cons_append] at heq
      obtain ⟨rfl, hrest⟩ := List.cons.inj heq
      have hbs : bs = [] := by
        have hsum := congrArg List.length hrest
        rw [List.length_append] at hsum
        have hle := hlen as
        exact List.length_eq_zero_iff.mp (by omega)
      subst hbs
      exact ⟨hb, ih.mp hrest⟩
    · rintro ⟨ha, hrest⟩
      rw [ha, ih.mpr hrest, List.singleton_append]

/-- The characters of lines, with a line feed for each. -/
def weight (ls : List (List Char)) : Nat := (ls.map fun line => line.length + 1).sum

@[simp] theorem weight_cons (line : List Char) (ls : List (List Char)) :
    weight (line :: ls) = line.length + 1 + weight ls := List.sum_cons

/-- The weight of lines is the length of the text that they make, with one more line end. -/
theorem length_intercalate {ls : List (List Char)} (h : ls ≠ []) :
    (List.intercalate ['\n'] ls).length + 1 = weight ls := by
  induction ls with
  | nil => contradiction
  | cons line ls ih =>
    cases ls with
    | nil => simp [weight]
    | cons next ls =>
      have hrest := ih (List.cons_ne_nil next ls)
      rw [List.intercalate_cons_cons, List.length_append, List.length_append, weight_cons, ← hrest,
        List.length_singleton]
      omega

/-- Cutting a text into lines adds nothing to it. -/
theorem weight_lines_le (cs : List Char) : weight (lines cs) ≤ cs.length + 1 := by
  fun_induction lines cs with
  | case1 => simp [weight]
  | case2 cs ih => simp; omega
  | case3 cs ih => simp; omega
  | case4 c cs hline hreturn hnil ih => simp [weight]
  | case5 c cs hline hreturn line rest hlines ih =>
    rw [hlines] at ih
    simp only [weight_cons, List.length_cons] at ih ⊢
    omega

theorem weight_le_of_sublist {xs ys : List (List Char)} (h : xs.Sublist ys) :
    weight xs ≤ weight ys := by
  induction h with
  | slnil => exact Nat.le_refl _
  | cons line _ ih => simp only [weight_cons]; omega
  | cons_cons line _ ih => simp only [weight_cons]; omega

/-- A line that is left out would be missing in the weight. -/
theorem eq_of_sublist_of_weight {xs ys : List (List Char)} (h : xs.Sublist ys)
    (hle : weight ys ≤ weight xs) : xs = ys := by
  induction h with
  | slnil => rfl
  | cons line h _ =>
    have hless := weight_le_of_sublist h
    rw [weight_cons] at hle
    omega
  | cons_cons line _ ih =>
    simp only [weight_cons] at hle
    rw [ih (by omega)]

section Shortened

variable {f : List Char → List Char} (hf : ∀ line, (f line).Sublist line)
include hf

theorem weight_map_le (ls : List (List Char)) : weight (ls.map f) ≤ weight ls := by
  induction ls with
  | nil => exact Nat.le_refl _
  | cons line ls ih =>
    have hline := (hf line).length_le
    simp only [List.map_cons, weight_cons]
    omega

/-- If lines can only become shorter and the weight stays, then each line stays as it is. -/
theorem map_eq_of_weight {ls : List (List Char)} (hle : weight ls ≤ weight (ls.map f)) :
    ls.map f = ls := by
  induction ls with
  | nil => rfl
  | cons line ls ih =>
    have hline := (hf line).length_le
    have hrest := weight_map_le hf ls
    simp only [List.map_cons, weight_cons] at hle
    rw [List.map_cons, (hf line).eq_of_length_le (by omega), ih (by omega)]

end Shortened

theorem trimBlank_sublist (ls : List (List Char)) : (BlockString.trimBlank ls).Sublist ls := by
  have h := ((List.dropWhile_sublist (p := isBlankLine)
    (l := (ls.dropWhile isBlankLine).reverse))).reverse
  rw [List.reverse_reverse] at h
  exact h.trans (List.dropWhile_sublist _)

theorem reprintedLine_sublist (n : Nat) (line : List Char) :
    (reprintedLine n line).Sublist line := by
  unfold reprintedLine
  split
  · exact List.nil_sublist line
  · exact (dropBytes_suffix n _).sublist.trans (withoutReturn_sublist line)

/-- Characters that are read as they are if they are printed between triple quotes: their lines
end with line feeds only and not at the end, the first one and the last one are not blank, the
others are empty if they are, and not all of them are indented. -/
structure IsSettled (cs : List Char) : Prop where
  joined : List.intercalate ['\n'] (lines cs) = cs
  ends : ∀ line ∈ lines cs, withoutReturn line = line
  trimmed : BlockString.trimBlank (lines cs) = lines cs
  blank : ∀ line ∈ lines cs, isBlankLine line = true → line = []
  flush : BlockString.commonIndentation (lines cs) = some 0

/-- A line that is not blank loses at least one character with its indentation. -/
theorem eq_zero_of_dropBytes {n : Nat} {line : List Char} (hne : line ≠ [])
    (h : BlockString.dropBytes n line = line) : n = 0 := by
  obtain ⟨c, rest, rfl⟩ := List.exists_cons_of_ne_nil hne
  by_contra hn
  rw [dropBytes_cons hn] at h
  have hle := (dropBytes_suffix (n - c.utf8Size) rest).length_le
  rw [h, List.length_cons] at hle
  omega

/-- A line stays as it is only if there is nothing that it could lose. -/
theorem reprintedLine_eq_self {n : Nat} {line : List Char} (h : reprintedLine n line = line) :
    (isBlankLine line = true → line = []) ∧ withoutReturn line = line ∧
      (isBlankLine line = false → n = 0) := by
  unfold reprintedLine at h
  split at h
  · next hblank =>
    subst h
    exact ⟨fun _ => rfl, rfl, fun hfalse => absurd hblank (by simp [hfalse])⟩
  · next hblank =>
    have hne : line ≠ [] := by
      rintro rfl
      exact hblank rfl
    have hreturn : withoutReturn line = line := by
      have hsub := (dropBytes_suffix n (withoutReturn line)).sublist
      rw [h] at hsub
      exact (withoutReturn_sublist line).antisymm hsub
    rw [hreturn] at h
    exact ⟨fun htrue => absurd htrue hblank, hreturn, fun _ => eq_zero_of_dropBytes hne h⟩

/-- Some line of a text that is not lost is not blank. -/
theorem exists_not_blank {ls : List (List Char)} (h : BlockString.trimBlank ls ≠ []) :
    ∃ line ∈ ls, isBlankLine line = false := by
  by_contra hnone
  refine h (trimBlank_of_forall fun line hline => ?_)
  by_contra hblank
  exact hnone ⟨line, hline, by simpa using hblank⟩

/-- Every step leaves out characters, so that all of them are there only if none does. -/
theorem kept_of_reprintedBlock {cs : List Char} {n : Nat} (h : cs ≠ [])
    (heq : List.intercalate ['\n']
      (BlockString.trimBlank ((lines cs).map (reprintedLine n))) = cs) :
    (lines cs).map (reprintedLine n) = lines cs ∧ BlockString.trimBlank (lines cs) = lines cs := by
  have hsub := trimBlank_sublist ((lines cs).map (reprintedLine n))
  have hne : BlockString.trimBlank ((lines cs).map (reprintedLine n)) ≠ [] := by
    intro hnil
    rw [hnil] at heq
    exact h heq.symm
  have hweight := length_intercalate hne
  rw [heq] at hweight
  have hlines := weight_lines_le cs
  have hmap := weight_map_le (reprintedLine_sublist n) (lines cs)
  have htrim := weight_le_of_sublist hsub
  have hsame : (lines cs).map (reprintedLine n) = lines cs :=
    map_eq_of_weight (reprintedLine_sublist n) (by omega)
  have htrimmed := eq_of_sublist_of_weight hsub (by omega)
  rw [hsame] at htrimmed
  exact ⟨hsame, htrimmed⟩

/-- A text that is read back as it was has nothing to lose: what is printed is never longer, so that
equality leaves no room for any change. -/
theorem isSettled_of_reprintedBlock {cs : List Char} (h : cs ≠ [])
    (heq : reprintedBlock cs = cs) : IsSettled cs := by
  unfold reprintedBlock at heq
  generalize hn : (BlockString.commonIndentation (lines cs)).getD 0 = n at heq
  simp only at heq
  obtain ⟨hsame, htrim⟩ := kept_of_reprintedBlock h heq
  rw [hsame] at heq
  have hkept : ∀ line ∈ lines cs, reprintedLine n line = line :=
    List.map_inj_left.mp (hsame.trans (List.map_id _).symm)
  have hne : BlockString.trimBlank (lines cs) ≠ [] := by
    intro hnil
    rw [hnil] at heq
    exact h heq.symm
  obtain ⟨line, hline, hblank⟩ := exists_not_blank hne
  obtain ⟨m, hm, -⟩ := exists_commonIndentation hline hblank
  rw [hm, Option.getD_some] at hn
  exact {
    joined := htrim ▸ heq
    ends := fun line hline => (reprintedLine_eq_self (hkept line hline)).2.1
    trimmed := htrim
    blank := fun line hline => (reprintedLine_eq_self (hkept line hline)).1
    flush := by rw [hm, hn, (reprintedLine_eq_self (hkept line hline)).2.2 hblank] }

/-- A text with nothing to lose is read back as it was. -/
theorem IsSettled.reprintedBlock_eq {cs : List Char} (h : IsSettled cs) :
    reprintedBlock cs = cs := by
  have hmap : (lines cs).map (reprintedLine 0) = lines cs := by
    refine (List.map_congr_left fun line hline => ?_).trans (List.map_id _)
    unfold reprintedLine
    split
    · next hblank => exact (h.blank line hline hblank).symm
    · rw [dropBytes_zero]
      exact h.ends line hline
  rw [reprintedBlock, h.flush, Option.getD_some]
  simp only [hmap, h.trimmed, h.joined]

/-- A string of characters that are plain or have code points of one digit, if it is printed
between quotes, and of settled lines, if it is printed between triple quotes. -/
def IsSteady (s : String) : Prop :=
  if isBlockText s.toList then IsSettled s.toList
  else ∀ c ∈ s.toList, QuotedString.isPlain c = true ∨ c.toNat < 10

/-- **Strings that stay**: exactly the steady ones are read as they are after they have been
printed. -/
theorem reprinted_eq_self_iff (s : String) : reprinted s = s ↔ IsSteady s := by
  have hchars : reprinted s = s ↔
      (if isBlockText s.toList then reprintedBlock s.toList
        else s.toList.flatMap reprintedChar) = s.toList := by
    rw [reprinted, ← String.toList_inj, String.toList_ofList]
  rw [hchars, IsSteady]
  split
  · next hblock =>
    have hne : s.toList ≠ [] := by
      intro hnil
      rw [hnil] at hblock
      contradiction
    exact ⟨isSettled_of_reprintedBlock hne, IsSettled.reprintedBlock_eq⟩
  · rw [flatMap_eq_self_iff reprintedChar_ne_nil]
    simp only [reprintedChar_eq_self_iff]

end QueryDoc.Grammar
