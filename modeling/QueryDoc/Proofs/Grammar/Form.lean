import QueryDoc.Grammar.Token
import QueryDoc.Proofs.Source.Form

/-!
# QueryDoc.Proofs.Grammar.Form

The forms of the grammar's tokens. As with lexemes, a token has one of a few forms, each of
which asks something of the text behind it (`Token.Form`), and a text begins with a token exactly
if it consists of a form and of what stands behind it (`Token.endsBefore_iff`). The strict cut
takes a string as a whole or not at all, so no string depends on what is behind it, but for the
quotes that would make it a block string.
-/

namespace QueryDoc.Grammar

/-! ## Characters that end a number -/

/-- What holds of each character that ends a number. -/
theorem of_endsNumber {p : Char → Bool} (hp : " \n\r\t,#!$:=@|&()[]\x7b\x7d".toList.all p = true)
    {c : Char} (h : endsNumber c = true) : p c = true :=
  List.all_eq_true.mp hp c (List.contains_iff_mem.mp h)

/-- A name goes on over every character that does not end a number. -/
theorem not_isNameChar_of_endsNumber {c : Char} (h : endsNumber c = true) :
    isNameChar c = false := by
  have hnot : (!isNameChar c) = true := of_endsNumber (p := fun c => !isNameChar c) (by decide) h
  rwa [Bool.not_eq_true'] at hnot

theorem not_endsNumber_of_numeric {c : Char} (h : c = '-' ∨ c.isDigit = true) :
    endsNumber c = false := by
  refine Bool.eq_false_iff.mpr fun hends => ?_
  have hnot := of_endsNumber (p := fun d => decide ¬ (d = '-' ∨ d.isDigit = true)) (by decide) hends
  exact of_decide_eq_true hnot h

/-- Every mark ends a number. -/
theorem endsNumber_of_isMark {c : Char} (h : isMark c = true) : endsNumber c = true :=
  of_isMark (by decide) h

/-- What the strict cut takes for a number is an integer or a float. -/
theorem eq_of_numberKind? {cs : List Char} {kind : TokenKind} (h : numberKind? cs = some kind) :
    kind = .int ∨ kind = .float := by
  unfold numberKind? at h
  split at h
  · split at h
    · exact .inl (Option.some.inj (Option.ite_none_right_eq_some.mp h).2).symm
    · exact .inr (Option.some.inj (Option.ite_none_right_eq_some.mp h).2).symm
  · split at h
    · exact .inr (Option.some.inj (Option.ite_none_right_eq_some.mp h).2).symm
    · exact .inr (Option.some.inj (Option.ite_none_right_eq_some.mp h).2).symm

/-! ## Strings -/

/-- The strict cut of a string does not look at what is behind it. -/
theorem splitString?_front {cs : List Char} {s : List Char × List Char}
    (h : splitString? cs = some s) (more : List Char) :
    splitString? (s.1 ++ more) = some (s.1, more) := by
  fun_induction splitString? cs generalizing s with
  | case1 => contradiction
  | case2 => contradiction
  | case3 c cs hc ih =>
    obtain ⟨s, hs, rfl⟩ := Option.map_eq_some_iff.mp h
    simp [splitString?, hc, ih hs]
  | case4 cs =>
    cases h
    rfl
  | case5 => contradiction
  | case6 c cs hesc hquote hline ih =>
    obtain ⟨s, hs, rfl⟩ := Option.map_eq_some_iff.mp h
    have hback : c ≠ '\\' := by
      rintro rfl
      cases cs with
      | nil => contradiction
      | cons x xs => exact hesc x xs rfl rfl
    rw [List.cons_append, splitString?]
    · simp [hquote, hline, ih hs]
    · intro x xs hx
      exact absurd hx hback

theorem three_le_length_splitBlockString? {cs : List Char} {s : List Char × List Char}
    (h : splitBlockString? cs = some s) : 3 ≤ s.1.length := by
  fun_induction splitBlockString? cs generalizing s with
  | case1 => contradiction
  | case2 cs ih =>
    obtain ⟨s, hs, rfl⟩ := Option.map_eq_some_iff.mp h
    simp
  | case3 cs =>
    cases h
    simp
  | case4 c cs hesc hquotes ih =>
    obtain ⟨s, hs, rfl⟩ := Option.map_eq_some_iff.mp h
    have hlen := ih hs
    simp only [List.length_cons]
    omega

/-- The strict cut of a block string does not look at what is behind it. -/
theorem splitBlockString?_front {cs : List Char} {s : List Char × List Char}
    (h : splitBlockString? cs = some s) (more : List Char) :
    splitBlockString? (s.1 ++ more) = some (s.1, more) := by
  fun_induction splitBlockString? cs generalizing s with
  | case1 => contradiction
  | case2 cs ih =>
    obtain ⟨s, hs, rfl⟩ := Option.map_eq_some_iff.mp h
    simp [splitBlockString?, ih hs]
  | case3 cs =>
    cases h
    rfl
  | case4 c cs hesc hquotes ih =>
    obtain ⟨s, hs, rfl⟩ := Option.map_eq_some_iff.mp h
    -- What the front begins with, the whole text begins with.
    have hfront (quotes : List Char) {x : List Char} (hlen : quotes.length ≤ 3)
        (hx : s.1 ++ more = quotes ++ x) : ∃ y, cs = quotes ++ y := by
      obtain ⟨y, hy⟩ : quotes <+: s.1 := List.prefix_of_prefix_length_le ⟨x, hx.symm⟩
        (List.prefix_append s.1 more) (hlen.trans (three_le_length_splitBlockString? hs))
      exact ⟨y ++ s.2, by rw [← splitBlockString?_append hs, ← hy, List.append_assoc]⟩
    rw [List.cons_append, splitBlockString?, ih hs]
    · rfl
    · intro x hc hx
      obtain ⟨y, rfl⟩ := hfront ['"', '"', '"'] (by decide) hx
      exact hesc y hc rfl
    · intro x hc hx
      obtain ⟨y, rfl⟩ := hfront ['"', '"'] (by decide) hx
      exact hquotes y hc rfl

/-! ## The forms -/

/-- The forms of a token with `rest` behind it. -/
inductive Token.Form : Token → List Char → Prop where
  | blockString {body rest : List Char} (h : splitBlockString? body = some (body, [])) :
      Form ⟨.blockString, '"' :: '"' :: '"' :: body⟩ rest
  | string {body rest : List Char} (hquotes : ¬ ['"', '"'] <+: body ++ rest)
      (h : splitString? body = some (body, [])) : Form ⟨.string, '"' :: body⟩ rest
  | spread {rest : List Char} : Form ⟨.spread, ['.', '.', '.']⟩ rest
  | number {kind : TokenKind} {text rest : List Char}
      (hstart : ∃ c ∈ text.head?, c = '-' ∨ c.isDigit = true)
      (hkind : numberKind? text = some kind) (hin : ∀ c ∈ text, endsNumber c = false)
      (hend : ∀ c ∈ rest.head?, endsNumber c = true) : Form ⟨kind, text⟩ rest
  | name {name rest : List Char} (hname : isName name = true)
      (hend : ∀ c ∈ rest.head?, isNameChar c = false) : Form ⟨.name, name⟩ rest
  | mark {c : Char} {rest : List Char} (hc : isMark c = true) : Form ⟨.punctuator c, [c]⟩ rest

/-- What the strict cut takes off a text has one of the forms. -/
theorem form_of_splitToken? {c : Char} {cs rest : List Char} {t : Token}
    (h : splitToken? c cs = some (t, rest)) : t.Form rest := by
  unfold splitToken? at h
  split at h
  · split at h
    · obtain ⟨s, hs, he⟩ := Option.map_eq_some_iff.mp h
      cases he
      have hfront := splitBlockString?_front hs []
      rw [List.append_nil] at hfront
      exact .blockString hfront
    · next hno =>
      obtain ⟨s, hs, he⟩ := Option.map_eq_some_iff.mp h
      cases he
      have hfront := splitString?_front hs []
      rw [List.append_nil] at hfront
      refine .string ?_ hfront
      rw [splitString?_append hs]
      rintro ⟨t, rfl⟩
      exact hno t rfl
  split at h
  · split at h
    · cases h
      exact .spread
    · contradiction
  split at h
  · next hnumber =>
    obtain ⟨kind, hkind, he⟩ := Option.map_eq_some_iff.mp h
    cases he
    refine .number ⟨c, rfl, by simpa using hnumber⟩ hkind ?_ fun d hd => ?_
    · refine List.forall_mem_cons.mpr ⟨not_endsNumber_of_numeric (by simpa using hnumber), ?_⟩
      exact fun d hd => by simpa using Source.forall_mem_takeWhile cs d hd
    · simpa using Source.head_dropWhile cs d hd
  split at h
  · next hname =>
    cases h
    exact .name (isName_cons.mpr ⟨hname, Source.forall_mem_takeWhile cs⟩) (Source.head_dropWhile cs)
  split at h
  · next hmark =>
    cases h
    exact .mark hmark
  · contradiction

/-! ## Each form is cut off -/

section

variable {c : Char} {cs : List Char}

/-- Three quotes begin a block string, if it is closed. -/
theorem splitToken?_blockString (cs : List Char) :
    splitToken? '"' ('"' :: '"' :: cs) = (splitBlockString? cs).map fun s =>
      (⟨.blockString, '"' :: '"' :: '"' :: s.1⟩, s.2) := by
  unfold splitToken?
  rw [if_pos rfl]
  rfl

/-- A quote that is not the first of three begins a string, if it is closed. -/
theorem splitToken?_string (h : ¬ ['"', '"'] <+: cs) :
    splitToken? '"' cs = (splitString? cs).map fun s => (⟨.string, '"' :: s.1⟩, s.2) := by
  unfold splitToken?
  rw [if_pos rfl]
  split
  · exact absurd ⟨_, rfl⟩ h
  · rfl

/-- A minus sign or a digit begins a number, if all up to the next stop is one. -/
theorem splitToken?_number (h : c = '-' ∨ c.isDigit = true) (cs : List Char) :
    splitToken? c cs = (numberKind? (c :: cs.takeWhile fun c => !endsNumber c)).map fun kind =>
      (⟨kind, c :: cs.takeWhile fun c => !endsNumber c⟩, cs.dropWhile fun c => !endsNumber c) := by
  obtain ⟨-, -, hquote, hdot⟩ := isNumeric_cases h
  unfold splitToken?
  rw [if_neg hquote, if_neg hdot, if_pos h]

/-- A letter or an underscore begins a name, which goes on as far as it can. -/
theorem splitToken?_name (h : isNameStart c = true) (cs : List Char) :
    splitToken? c cs =
      some (⟨.name, c :: cs.takeWhile isNameChar⟩, cs.dropWhile isNameChar) := by
  obtain ⟨-, -, hquote, hdot, hnumber⟩ := isNameStart_cases h
  unfold splitToken?
  rw [if_neg hquote, if_neg hdot, if_neg hnumber, if_pos h]

theorem splitToken?_mark (h : isMark c = true) (cs : List Char) :
    splitToken? c cs = some (⟨.punctuator c, [c]⟩, cs) := by
  obtain ⟨-, -, hquote, hdot, hnumber, hname⟩ := isMark_cases h
  unfold splitToken?
  rw [if_neg hquote, if_neg hdot, if_neg hnumber, if_neg (Bool.eq_false_iff.mp hname), if_pos h]

end

/-- A token in front of a text, as the strict cut finds it. -/
def Token.EndsBefore (t : Token) (rest : List Char) : Prop :=
  ∃ c cs, t.text ++ rest = c :: cs ∧ isIgnorable c = false ∧ c ≠ '#' ∧
    splitToken? c cs = some (t, rest)

theorem endsBefore_of_splitToken? {c : Char} {cs rest : List Char} {t : Token}
    (hblank : isIgnorable c = false) (hhash : c ≠ '#') (h : splitToken? c cs = some (t, rest)) :
    t.EndsBefore rest :=
  ⟨c, cs, splitToken?_append h, hblank, hhash, h⟩

/-- The case of the cut that produced a token tells its form. -/
theorem Token.EndsBefore.form {t : Token} {rest : List Char} (h : t.EndsBefore rest) :
    t.Form rest := by
  obtain ⟨c, cs, -, -, -, hsplit⟩ := h
  exact form_of_splitToken? hsplit

/-- A token of each form is cut off whole in front of what may follow it. -/
theorem Token.Form.endsBefore {t : Token} {rest : List Char} (h : t.Form rest) :
    t.EndsBefore rest := by
  cases h with
  | @blockString body rest h =>
    have hsplit := splitToken?_blockString (body ++ rest)
    rw [splitBlockString?_front h rest] at hsplit
    exact endsBefore_of_splitToken? rfl (by decide) hsplit
  | @string body rest hquotes h =>
    have hsplit := splitToken?_string hquotes
    rw [splitString?_front h rest] at hsplit
    exact endsBefore_of_splitToken? rfl (by decide) hsplit
  | @spread rest =>
    exact endsBefore_of_splitToken? (c := '.') rfl (by decide)
      (show splitToken? '.' ('.' :: '.' :: rest) = _ from rfl)
  | @number kind text rest hstart hkind hin hend =>
    obtain ⟨c, hc, hnumber⟩ := hstart
    obtain ⟨cs, rfl⟩ := List.head?_eq_some_iff.mp hc
    obtain ⟨hblank, hhash, -⟩ := isNumeric_cases hnumber
    have hall : ∀ d ∈ cs, (!endsNumber d) = true := by simpa using (List.forall_mem_cons.mp hin).2
    have hstop : ∀ d ∈ rest.head?, (!endsNumber d) = false := by simpa using hend
    have hsplit := splitToken?_number hnumber (cs ++ rest)
    rw [Source.takeWhile_append_of_head hall hstop, Source.dropWhile_append_of_head hall hstop,
      hkind] at hsplit
    exact endsBefore_of_splitToken? hblank hhash hsplit
  | @name name rest hname hend =>
    obtain ⟨c, cs, rfl⟩ := List.exists_cons_of_ne_nil (ne_nil_of_isName hname)
    obtain ⟨hc, hcs⟩ := isName_cons.mp hname
    obtain ⟨hblank, hhash, -⟩ := isNameStart_cases hc
    have hsplit := splitToken?_name hc (cs ++ rest)
    rw [Source.takeWhile_append_of_head hcs hend, Source.dropWhile_append_of_head hcs hend]
      at hsplit
    exact endsBefore_of_splitToken? hblank hhash hsplit
  | @mark c rest hc =>
    obtain ⟨hblank, hhash, -⟩ := isMark_cases hc
    exact endsBefore_of_splitToken? hblank hhash (splitToken?_mark hc rest)

/-- The forms say all there is to say about where a token ends. -/
theorem Token.endsBefore_iff {t : Token} {rest : List Char} : t.EndsBefore rest ↔ t.Form rest :=
  ⟨EndsBefore.form, Form.endsBefore⟩

/-- A string between quotes is one that is not cut off as a block string. -/
theorem Token.Form.exists_of_string {t : Token} {rest : List Char} (h : t.Form rest)
    (hk : t.kind = .string) :
    ∃ body, t.text = '"' :: body ∧ ¬ ['"', '"'] <+: body ++ rest ∧
      splitString? body = some (body, []) := by
  cases h with
  | @string body _ hquotes h => exact ⟨body, rfl, hquotes, h⟩
  | number _ hkind =>
    obtain rfl : _ = TokenKind.string := hk
    obtain hkind | hkind := eq_of_numberKind? hkind <;> contradiction
  | _ => contradiction

end QueryDoc.Grammar
