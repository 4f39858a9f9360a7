import QueryDoc.Json.Reader
import QueryDoc.Proofs.Decimal

/-!
# QueryDoc.Proofs.Json.Reading

Texts of JSON trees read back. Where a tree's numbers are numbers and its strings are written by
`Json.encodeString`, reading its text gives the tree (`Json.read?_text`).

A value is found in front of everything that can follow one: a comma, a closing bracket or
brace, or the end of the text (`Json.IsEnd`).
-/

namespace QueryDoc.Json

/-! ## Strings -/

/-- The two last digits of an escape give the control character that it was written for. -/
theorem hexUnit?_control : ∀ n < 32,
    hexUnit? '0' '0' (hexDigit (n / 16)) (hexDigit n) = some n := by
  decide

theorem charOfCode?_toNat (c : Char) : charOfCode? c.toNat = some c := by
  have hvalid : c.toNat.isValidChar := c.valid
  rw [charOfCode?, dif_pos hvalid]
  rfl

/-- The ways in which a character is written: a letter behind a backslash, a code point of two
digits, or as it is. -/
theorem encodeChar_cases (c : Char) :
    (∃ x, encodeChar c = ['\\', x] ∧ x ≠ 'u' ∧ escapedChar? x = some c) ∨
      (encodeChar c = ['\\', 'u', '0', '0', hexDigit (c.toNat / 16), hexDigit c.toNat] ∧
        c.toNat < 32) ∨
      (encodeChar c = [c] ∧ c ≠ '"' ∧ c ≠ '\\' ∧ ¬ c < ' ') := by
  unfold encodeChar
  split_ifs with hquote hback hb hf hn hr ht hcontrol
  · exact .inl ⟨'"', rfl, by decide, by rw [hquote]; rfl⟩
  · exact .inl ⟨'\\', rfl, by decide, by rw [hback]; rfl⟩
  · exact .inl ⟨'b', rfl, by decide, by rw [hb]; rfl⟩
  · exact .inl ⟨'f', rfl, by decide, by rw [hf]; rfl⟩
  · exact .inl ⟨'n', rfl, by decide, by rw [hn]; rfl⟩
  · exact .inl ⟨'r', rfl, by decide, by rw [hr]; rfl⟩
  · exact .inl ⟨'t', rfl, by decide, by rw [ht]; rfl⟩
  · exact .inr (.inl ⟨rfl, hcontrol⟩)
  · exact .inr (.inr ⟨rfl, hquote, hback, hcontrol⟩)

/-- No character is written so that a quote or a lone backslash remains. -/
theorem splitString?_encodeChar (c : Char) (cs : List Char) :
    splitString? (encodeChar c ++ cs) =
      (splitString? cs).map fun s => (encodeChar c ++ s.1, s.2) := by
  obtain ⟨x, hc, hx, hescape⟩ | ⟨hc, hcontrol⟩ | ⟨hc, hquote, hback, hcontrol⟩ := encodeChar_cases c
  · rw [hc, List.cons_append, List.singleton_append, splitString?, hescape]
    · rfl
    · exact fun _ _ _ _ _ hu => absurd hu hx
  · rw [hc]
    simp [splitString?, hexUnit?_control _ hcontrol]
  · rw [hc]
    simp [splitString?, hquote, hback, hcontrol]

/-- What is written for a character is read as this character. -/
theorem decodeChars?_encodeChar (c : Char) (cs : List Char) :
    decodeChars? (encodeChar c ++ cs) = (decodeChars? cs).map (c :: ·) := by
  obtain ⟨x, hc, hx, hescape⟩ | ⟨hc, hcontrol⟩ | ⟨hc, hquote, hback, hcontrol⟩ := encodeChar_cases c
  · rw [hc, List.cons_append, List.singleton_append, decodeChars?, hescape, Option.bind_some]
    exact fun _ _ _ _ _ hu => absurd hu hx
  · have hhigh : isHighSurrogate c.toNat = false := decide_eq_false (by omega)
    rw [hc]
    simp [decodeChars?, hexUnit?_control _ hcontrol, hhigh, charOfCode?_toNat]
  · rw [hc]
    simp [decodeChars?, hback]

/-- A string ends at its closing quote. -/
theorem splitString?_encodeString (s : String) (rest : List Char) :
    splitString? (encodeString s ++ '"' :: rest) = some (encodeString s, rest) := by
  unfold encodeString
  induction s.toList with
  | nil => rfl
  | cons c cs ih =>
    rw [List.flatMap_cons, List.append_assoc, splitString?_encodeChar, ih, Option.map_some]

/-- A string is read as it was, whatever its characters are. -/
theorem decodeString?_encodeString (s : String) : decodeString? (encodeString s) = some s := by
  have hchars (cs : List Char) : decodeChars? (cs.flatMap encodeChar) = some cs := by
    induction cs with
    | nil => rfl
    | cons c cs ih => rw [List.flatMap_cons, decodeChars?_encodeChar, ih, Option.map_some]
  rw [decodeString?, encodeString, hchars, Option.map_some, String.ofList_toList]

/-! ## Numbers -/

/-- What may follow a value: a comma, a closing bracket or brace, or nothing. -/
def IsEnd (rest : List Char) : Prop := ∀ c ∈ rest.head?, c = ',' ∨ c = ']' ∨ c = '\x7d'

theorem isEnd_nil : IsEnd [] := nofun

theorem isEnd_cons {c : Char} (h : c = ',' ∨ c = ']' ∨ c = '\x7d') (cs : List Char) :
    IsEnd (c :: cs) := by
  rintro _ ⟨⟩
  exact h

/-- No number goes on where a value ends. -/
theorem IsEnd.not_digit {rest : List Char} (h : IsEnd rest) :
    ∀ c ∈ rest.head?, c.isDigit = false := by
  intro c hc
  obtain rfl | rfl | rfl := h c hc <;> decide

section

variable {cs taken behind rest : List Char}

/-- Digits in front of a text are the same with more behind it, unless that begins with a digit. -/
theorem splitDigits?_append (h : splitDigits? cs = some (taken, behind))
    (hr : ∀ c ∈ rest.head?, c.isDigit = false) :
    splitDigits? (cs ++ rest) = some (taken, behind ++ rest) := by
  have hspan : spanDigits (cs ++ rest) = ((spanDigits cs).1, (spanDigits cs).2 ++ rest) := by
    conv_lhs => rw [← spanDigits_append cs, List.append_assoc]
    refine Source.spanDigits_eq (Source.forall_mem_takeWhile cs) fun c hc => ?_
    rw [List.head?_append, Option.mem_def, Option.or_eq_some_iff] at hc
    obtain hc | ⟨-, hc⟩ := hc
    · exact Source.head_dropWhile _ c hc
    · exact hr c hc
  unfold splitDigits? at h ⊢
  split_ifs at h with hnone
  rw [hspan, if_neg hnone, Option.some.inj h]

/-- What is taken in front of something is still taken if more follows that is no digit. -/
theorem splitWhole?_append (h : splitWhole? cs = some (taken, behind))
    (hr : ∀ c ∈ rest.head?, c.isDigit = false) :
    splitWhole? (cs ++ rest) = some (taken, behind ++ rest) := by
  unfold splitWhole? at h
  split at h
  · cases h
    rfl
  · next hzero =>
    obtain _ | ⟨c, cs⟩ := cs
    · contradiction
    · rw [List.cons_append, splitWhole?, ← List.cons_append, splitDigits?_append h hr]
      exact fun _ heq => hzero cs (congrArg (· :: cs) (List.cons.inj heq).1)

/-- A fraction ends where neither a point nor a digit follows. -/
theorem splitFraction?_append (h : splitFraction? cs = some (taken, behind))
    (hdot : ∀ c ∈ rest.head?, c ≠ '.') (hdigit : ∀ c ∈ rest.head?, c.isDigit = false) :
    splitFraction? (cs ++ rest) = some (taken, behind ++ rest) := by
  unfold splitFraction? at h
  split at h
  · obtain ⟨digits, hdigits, heq⟩ := Option.map_eq_some_iff.mp h
    cases heq
    rw [List.cons_append, splitFraction?, splitDigits?_append hdigits hdigit, Option.map_some]
  · next hno =>
    cases h
    rw [splitFraction?]
    intro t heq
    obtain _ | ⟨c, cs⟩ := cs
    · exact hdot '.' (congrArg List.head? heq) rfl
    · exact hno cs (congrArg (· :: cs) (List.cons.inj heq).1)

/-- An exponent ends where a value ends. -/
theorem splitExponent?_append (h : splitExponent? cs = some (taken, behind)) (hr : IsEnd rest) :
    splitExponent? (cs ++ rest) = some (taken, behind ++ rest) := by
  cases cs with
  | nil =>
    cases h
    cases rest with
    | nil => rfl
    | cons c cs =>
      have hc : ¬ (c = 'e' ∨ c = 'E') := by
        obtain rfl | rfl | rfl := hr c rfl <;> decide
      simp [splitExponent?, hc]
  | cons c cs =>
    unfold splitExponent? at h
    simp only at h
    split_ifs at h with hc
    · split at h
      · obtain ⟨digits, hdigits, heq⟩ := Option.map_eq_some_iff.mp h
        cases heq
        simp [splitExponent?, hc, splitDigits?_append hdigits hr.not_digit]
      · obtain ⟨digits, hdigits, heq⟩ := Option.map_eq_some_iff.mp h
        cases heq
        simp [splitExponent?, hc, splitDigits?_append hdigits hr.not_digit]
      · next hplus hminus =>
        obtain ⟨digits, hdigits, heq⟩ := Option.map_eq_some_iff.mp h
        cases heq
        obtain _ | ⟨d, cs⟩ := cs
        · contradiction
        · rw [List.cons_append, List.cons_append, splitExponent?, if_pos hc, ← List.cons_append,
            splitDigits?_append hdigits hr.not_digit, Option.map_some]
          · exact fun _ heq => hplus cs (congrArg (· :: cs) (List.cons.inj heq).1)
          · exact fun _ heq => hminus cs (congrArg (· :: cs) (List.cons.inj heq).1)
    · cases h
      simp [splitExponent?, hc]

/-- A number ends where a value ends. -/
theorem splitUnsigned?_append (h : splitUnsigned? cs = some (taken, behind)) (hr : IsEnd rest) :
    splitUnsigned? (cs ++ rest) = some (taken, behind ++ rest) := by
  have hdot : ∀ c ∈ rest.head?, c ≠ '.' := by
    intro c hc
    obtain rfl | rfl | rfl := hr c hc <;> decide
  simp only [splitUnsigned?, Option.bind_eq_bind, Option.bind_eq_some_iff] at h
  obtain ⟨whole, hwhole, fraction, hfraction, exponent, hexponent, heq⟩ := h
  cases heq
  simp [splitUnsigned?, splitWhole?_append hwhole hr.not_digit,
    splitFraction?_append hfraction hdot hr.not_digit, splitExponent?_append hexponent hr]

/-- A number in front of a text is found with more behind it that may follow a value. -/
theorem splitNumber?_append (h : splitNumber? cs = some (taken, behind)) (hr : IsEnd rest) :
    splitNumber? (cs ++ rest) = some (taken, behind ++ rest) := by
  unfold splitNumber? at h
  split at h
  · obtain ⟨unsigned, hunsigned, heq⟩ := Option.map_eq_some_iff.mp h
    cases heq
    rw [List.cons_append, splitNumber?, splitUnsigned?_append hunsigned hr, Option.map_some]
  · next hminus =>
    obtain _ | ⟨c, cs⟩ := cs
    · contradiction
    · rw [List.cons_append, splitNumber?, ← List.cons_append, splitUnsigned?_append h hr]
      exact fun _ heq => hminus cs (congrArg (· :: cs) (List.cons.inj heq).1)

end

/-- Whether a text is a number and nothing else. -/
def IsNumber (text : List Char) : Prop := splitNumber? text = some (text, [])

/-- A number begins with a sign or a digit. -/
theorem IsNumber.exists_head {text : List Char} (h : IsNumber text) :
    ∃ c cs, text = c :: cs ∧ (c = '-' ∨ c.isDigit = true) := by
  unfold IsNumber splitNumber? at h
  split at h
  · next cs => exact ⟨'-', cs, rfl, .inl rfl⟩
  · simp only [splitUnsigned?, Option.bind_eq_bind, Option.bind_eq_some_iff] at h
    obtain ⟨whole, hwhole, -⟩ := h
    unfold splitWhole? at hwhole
    split at hwhole
    · exact ⟨'0', _, rfl, .inr rfl⟩
    · obtain _ | ⟨c, cs⟩ := text
      · contradiction
      · refine ⟨c, cs, rfl, .inr ?_⟩
        by_contra hc
        simp [splitDigits?, spanDigits, hc] at hwhole

/-! ## Numerals -/

theorem splitDigits?_of_isDigits {ds : List Char} (h : IsDigits ds) :
    splitDigits? ds = some (ds, []) := by
  have hspan : spanDigits (ds ++ []) = (ds, []) := Source.spanDigits_eq h.2 nofun
  rw [List.append_nil] at hspan
  rw [splitDigits?, hspan, if_neg (by simpa using h.1)]

/-- A written power of ten is taken whole, or there is none. -/
theorem splitExponent?_powerText (power : Option Int) :
    splitExponent? (Numeral.powerText power) = some (Numeral.powerText power, []) := by
  cases power with
  | none => rfl
  | some e =>
    have hsplit := splitDigits?_of_isDigits (isDigits_digits e.natAbs)
    unfold splitExponent? Numeral.powerText Decimal.intText
    by_cases he : e < 0
    · simp only [if_pos he, true_or, if_true, hsplit, Option.map_some]
    · obtain ⟨d, ds, hds, -, hplus, hminus⟩ := exists_head_digits e.natAbs
      rw [hds] at hsplit
      simp only [if_neg he, hds, true_or, if_true]
      split
      · next heq => exact absurd (List.cons.inj heq).1 hplus
      · next heq => exact absurd (List.cons.inj heq).1 hminus
      · rw [hsplit, Option.map_some]

/-- A written fraction is taken whole, or there is none. -/
theorem splitFraction?_fractionText {ds : List Char} (h : ∀ c ∈ ds, c.isDigit = true) :
    splitFraction? (Numeral.fractionText ds) = some (Numeral.fractionText ds, []) := by
  unfold Numeral.fractionText
  split_ifs with hds
  · rfl
  · rw [splitFraction?, splitDigits?_of_isDigits ⟨hds, h⟩, Option.map_some]

/-- Digits without a leading zero are taken whole. -/
theorem splitWhole?_of_isDigits {ds : List Char} (h : IsDigits ds)
    (hleading : ds = ['0'] ∨ ds.head? ≠ some '0') : splitWhole? ds = some (ds, []) := by
  obtain rfl | hhead := hleading
  · rfl
  · rw [splitWhole?, splitDigits?_of_isDigits h]
    rintro cs rfl
    exact hhead rfl

/-- A numeral is a number. -/
theorem isNumber_text {n : Numeral} (h : n.WellFormed) : IsNumber n.text := by
  have hpower : ∀ c ∈ (Numeral.powerText n.power).head?, c ≠ '.' ∧ c.isDigit = false := by
    intro c hc
    rw [Numeral.head?_powerText n.power c hc]
    decide
  have hfraction : ∀ c ∈ (Numeral.fractionText n.fraction ++ Numeral.powerText n.power).head?,
      c.isDigit = false :=
    Numeral.isDigit_of_mark (Numeral.head?_fractionText_append n.fraction n.power)
  have hwhole := splitWhole?_append (splitWhole?_of_isDigits h.whole h.leading) hfraction
  have hbehind := splitFraction?_append (splitFraction?_fractionText h.fraction)
    (fun c hc => (hpower c hc).1) fun c hc => (hpower c hc).2
  have hunsigned : splitUnsigned?
      (n.whole ++ (Numeral.fractionText n.fraction ++ Numeral.powerText n.power)) =
        some (n.whole ++ (Numeral.fractionText n.fraction ++ Numeral.powerText n.power), []) := by
    simp [splitUnsigned?, hwhole, hbehind, splitExponent?_powerText n.power]
  unfold IsNumber Numeral.text
  cases n.negative with
  | true => simp [splitNumber?, hunsigned]
  | false =>
    obtain ⟨d, ds, hds⟩ := List.exists_cons_of_ne_nil h.whole.1
    have hd := h.whole.2 d (hds ▸ List.mem_cons_self)
    rw [hds] at hunsigned ⊢
    simp only [Bool.false_eq_true, if_false, List.nil_append]
    unfold splitNumber?
    split
    · next heq => exact absurd (List.cons.inj heq).1 (by rintro rfl; exact absurd hd (by decide))
    · exact hunsigned

/-! ## Trees -/

mutual

/-- Whether the numbers of a tree are numbers, and its strings and keys are written as
characters are. -/
def IsWritten : Json → Prop
  | number text => IsNumber text
  | string written => ∃ s, written = encodeString s
  | array items => ItemsWritten items
  | object members => MembersWritten members
  | _ => True

/-- Whether all items can be read back. -/
def ItemsWritten : List Json → Prop
  | [] => True
  | j :: rest => j.IsWritten ∧ ItemsWritten rest

/-- Whether all keys and values can be read back. -/
def MembersWritten : List (List Char × Json) → Prop
  | [] => True
  | (key, j) :: rest => (∃ s, key = encodeString s) ∧ j.IsWritten ∧ MembersWritten rest

end

/-- A number begins with none of the characters that other values and blanks begin with. -/
theorem ne_of_numeric {c d : Char} (h : c = '-' ∨ c.isDigit = true)
    (hd : d ∈ "ntf\"[]\x7b \t\n\r".toList) : c ≠ d := by
  have hnone : ("ntf\"[]\x7b \t\n\r".toList.all fun c => c != '-' && !c.isDigit) = true := by decide
  have hnot := List.all_eq_true.mp hnone d hd
  rintro rfl
  rcases h with rfl | h
  · contradiction
  · simp [h] at hnot

theorem isBlank_of_numeric {c : Char} (h : c = '-' ∨ c.isDigit = true) : isBlank c = false := by
  simp [isBlank, ne_of_numeric h (d := ' ') (by decide), ne_of_numeric h (d := '\t') (by decide),
    ne_of_numeric h (d := '\n') (by decide), ne_of_numeric h (d := '\r') (by decide)]

/-- No blank stands in front of a value, and no closing bracket. -/
theorem exists_head_text {j : Json} (h : j.IsWritten) :
    ∃ c cs, j.text = c :: cs ∧ isBlank c = false ∧ c ≠ ']' := by
  cases j with
  | null => exact ⟨'n', _, rfl, rfl, by decide⟩
  | bool b =>
    cases b
    · exact ⟨'f', _, rfl, rfl, by decide⟩
    · exact ⟨'t', _, rfl, rfl, by decide⟩
  | number text =>
    obtain ⟨c, cs, htext, hc⟩ := IsNumber.exists_head h
    exact ⟨c, cs, htext, isBlank_of_numeric hc, ne_of_numeric hc (by decide)⟩
  | string written => exact ⟨'"', _, rfl, rfl, by decide⟩
  | array items => exact ⟨'[', _, rfl, rfl, by decide⟩
  | object members => exact ⟨'\x7b', _, rfl, rfl, by decide⟩

theorem skipBlanks_cons {c : Char} (h : isBlank c = false) (cs : List Char) :
    skipBlanks (c :: cs) = c :: cs := by
  rw [skipBlanks, List.dropWhile_cons_of_neg (by rw [h]; decide)]

/-- No value begins with a blank. -/
theorem skipBlanks_text_append {j : Json} (h : j.IsWritten) (rest : List Char) :
    skipBlanks (j.text ++ rest) = j.text ++ rest := by
  obtain ⟨c, cs, htext, hc, -⟩ := exists_head_text h
  rw [htext, List.cons_append, skipBlanks_cons hc]

/-- A comma stands between items. -/
theorem itemsText_cons (j : Json) {items : List Json} (h : items ≠ []) :
    itemsText (j :: items) = j.text ++ ',' :: itemsText items := by
  rw [itemsText]
  exact h

/-- A comma stands between members. -/
theorem membersText_cons (key : List Char) (j : Json) {members : List (List Char × Json)}
    (h : members ≠ []) :
    membersText ((key, j) :: members) =
      '"' :: key ++ '"' :: ':' :: j.text ++ ',' :: membersText members := by
  rw [membersText]
  exact h

/-- Items are not mistaken for the end of their array. -/
theorem exists_head_itemsText {j : Json} (h : j.IsWritten) (items : List Json) :
    ∃ c cs, itemsText (j :: items) = c :: cs ∧ isBlank c = false ∧ c ≠ ']' := by
  obtain ⟨c, cs, htext, hc⟩ := exists_head_text h
  cases items with
  | nil => exact ⟨c, cs, by rw [itemsText, htext], hc⟩
  | cons k items =>
    exact ⟨c, cs ++ ',' :: itemsText (k :: items),
      by rw [itemsText_cons j (List.cons_ne_nil _ _), htext, List.cons_append], hc⟩

theorem exists_head_membersText (key : List Char) (j : Json) (members : List (List Char × Json)) :
    ∃ cs, membersText ((key, j) :: members) = '"' :: cs := by
  cases members with
  | nil => exact ⟨_, rfl⟩
  | cons m members => exact ⟨_, membersText_cons key j (List.cons_ne_nil _ _)⟩

/-- A number is read up to where a value ends. -/
theorem readValue?_number {text rest : List Char} (h : IsNumber text) (hr : IsEnd rest)
    (room : Nat) : readValue? (room + 1) (text ++ rest) = some (number text, rest) := by
  have hsplit : splitNumber? (text ++ rest) = some (text, rest) := splitNumber?_append h hr
  obtain ⟨c, cs, htext, hc⟩ := h.exists_head
  have hhead {d : Char} {ds : List Char} (hd : d ∈ "ntf\"[]\x7b \t\n\r".toList) :
      c :: (cs ++ rest) ≠ d :: ds := fun heq => ne_of_numeric hc hd (List.cons.inj heq).1
  rw [htext, List.cons_append] at hsplit ⊢
  unfold readValue?
  split
  · next heq => exact absurd heq (hhead (by decide))
  · next heq => exact absurd heq (hhead (by decide))
  · next heq => exact absurd heq (hhead (by decide))
  · next heq => exact absurd heq (hhead (by decide))
  · next heq => exact absurd heq (hhead (by decide))
  · next heq => exact absurd heq (hhead (by decide))
  · rw [hsplit, Option.map_some]

mutual

/-- A value is found in front of what may follow it, if there is room for it. -/
theorem readValue?_text (j : Json) (h : j.IsWritten) (rest : List Char) (hr : IsEnd rest)
    (room : Nat) (hroom : 2 * j.text.length ≤ room) :
    readValue? room (j.text ++ rest) = some (j, rest) := by
  obtain ⟨room, rfl⟩ : ∃ n, room = n + 1 := by
    obtain ⟨c, cs, htext, -⟩ := exists_head_text h
    rw [htext, List.length_cons] at hroom
    exact ⟨room - 1, by omega⟩
  cases j with
  | null => simp [text, readValue?]
  | bool b => cases b <;> simp [text, readValue?]
  | number text =>
    exact readValue?_number h hr room
  | string written =>
    obtain ⟨s, rfl⟩ := h
    simp [text, readValue?, splitString?_encodeString]
  | array items =>
    -- An empty array is told by its first character: no item begins with a closing bracket.
    cases items with
    | nil =>
      have hskip := skipBlanks_cons (show isBlank ']' = false from rfl) rest
      simp [text, itemsText, readValue?, hskip, expect?]
    | cons j items =>
      obtain ⟨c, cs, htext, hc, hbracket⟩ := exists_head_itemsText h.1 items
      have hitems := readItems?_itemsText (j :: items) (List.cons_ne_nil _ _) h rest room
        (by
          simp only [text, List.length_append, List.length_cons] at hroom
          omega)
      rw [htext, List.cons_append] at hitems
      simp [text, readValue?, htext, skipBlanks_cons hc, expect?, hbracket.symm, hitems]
  | object members =>
    cases members with
    | nil =>
      have hskip := skipBlanks_cons (show isBlank '\x7d' = false from rfl) rest
      simp [text, membersText, readValue?, hskip, expect?]
    | cons m members =>
      obtain ⟨key, j⟩ := m
      obtain ⟨cs, htext⟩ := exists_head_membersText key j members
      have hmembers := readMembers?_membersText ((key, j) :: members) (List.cons_ne_nil _ _) h rest
        room (by
          simp only [text, List.length_append, List.length_cons] at hroom
          omega)
      have hskip := skipBlanks_cons (show isBlank '"' = false from rfl)
      rw [htext, List.cons_append] at hmembers
      simp [text, readValue?, htext, hskip, expect?, hmembers]

/-- Items are found up to their closing bracket. -/
theorem readItems?_itemsText (items : List Json) (hne : items ≠ []) (h : ItemsWritten items)
    (rest : List Char) (room : Nat) (hroom : 2 * (itemsText items).length + 1 ≤ room) :
    readItems? room (itemsText items ++ ']' :: rest) = some (items, rest) := by
  obtain ⟨room, rfl⟩ : ∃ n, room = n + 1 := ⟨room - 1, by omega⟩
  cases items with
  | nil => contradiction
  | cons j items =>
    cases items with
    | nil =>
      have hvalue := readValue?_text j h.1 (']' :: rest) (isEnd_cons (by decide) rest)
        room (by
          rw [itemsText] at hroom
          omega)
      have hskip := skipBlanks_cons (show isBlank ']' = false from rfl) rest
      simp [itemsText, readItems?, hvalue, hskip]
    | cons k items =>
      have htext := itemsText_cons j (List.cons_ne_nil k items)
      rw [htext, List.length_append, List.length_cons] at hroom
      have hvalue := readValue?_text j h.1 (',' :: (itemsText (k :: items) ++ ']' :: rest))
        (isEnd_cons (by decide) _) room (by omega)
      have hitems := readItems?_itemsText (k :: items) (List.cons_ne_nil _ _) h.2 rest room
        (by omega)
      have hcomma := skipBlanks_cons (show isBlank ',' = false from rfl)
      obtain ⟨c, cs, hhead, hc, -⟩ := exists_head_itemsText h.2.1 items
      rw [htext, List.append_assoc, List.cons_append]
      rw [hhead, List.cons_append] at hvalue hitems ⊢
      simp [readItems?, hvalue, hcomma, skipBlanks_cons hc, hitems]

/-- Members are found up to their closing brace. -/
theorem readMembers?_membersText (members : List (List Char × Json)) (hne : members ≠ [])
    (h : MembersWritten members) (rest : List Char) (room : Nat)
    (hroom : 2 * (membersText members).length + 1 ≤ room) :
    readMembers? room (membersText members ++ '\x7d' :: rest) = some (members, rest) := by
  obtain ⟨room, rfl⟩ : ∃ n, room = n + 1 := ⟨room - 1, by omega⟩
  cases members with
  | nil => contradiction
  | cons m members =>
    obtain ⟨key, j⟩ := m
    obtain ⟨⟨s, rfl⟩, hj, hmembers⟩ := h
    have hcolon := skipBlanks_cons (show isBlank ':' = false from rfl)
    cases members with
    | nil =>
      have hvalue := readValue?_text j hj ('\x7d' :: rest) (isEnd_cons (by decide) rest)
        room (by
          simp only [membersText, List.length_append, List.length_cons] at hroom
          omega)
      have hskip := skipBlanks_cons (show isBlank '\x7d' = false from rfl) rest
      simp [membersText, readMembers?, expect?, splitString?_encodeString, hcolon,
        skipBlanks_text_append hj, hvalue, hskip]
    | cons m members =>
      obtain ⟨key, k⟩ := m
      have htext := membersText_cons (encodeString s) j (List.cons_ne_nil (key, k) members)
      obtain ⟨cs, hhead⟩ := exists_head_membersText key k members
      rw [htext] at hroom
      simp only [List.length_append, List.length_cons] at hroom
      have hvalue := readValue?_text j hj
        (',' :: (membersText ((key, k) :: members) ++ '\x7d' :: rest))
        (isEnd_cons (by decide) _) room (by omega)
      have hrest := readMembers?_membersText ((key, k) :: members) (List.cons_ne_nil _ _) hmembers
        rest room (by omega)
      have hcomma := skipBlanks_cons (show isBlank ',' = false from rfl)
      have hquote := skipBlanks_cons (show isBlank '"' = false from rfl)
      rw [htext]
      rw [hhead, List.cons_append] at hvalue hrest
      simp [readMembers?, expect?, splitString?_encodeString, hcolon, skipBlanks_text_append hj,
        hhead, hvalue, hcomma, hquote, hrest]

end

/-- **Reading JSON**: a tree whose numbers are numerals, and whose strings are written as their
characters are, is read back from its text. -/
theorem read?_text {j : Json} (h : j.IsWritten) : read? j.text = some j := by
  have hvalue := readValue?_text j h [] isEnd_nil (2 * j.text.length + 1) (by omega)
  have hskip := skipBlanks_text_append h []
  rw [List.append_nil] at hvalue hskip
  rw [read?, hskip, hvalue]
  rfl

end QueryDoc.Json
