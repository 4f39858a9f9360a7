import Mathlib
import QueryDoc.Proofs.Character
import QueryDoc.Source.Lexeme

/-!
# QueryDoc.Proofs.Source.Form

The forms of lexemes. `Lexeme.EndsBefore l rest` says that the text of `l` in front of `rest`
is cut into `l` and `rest`. A lexeme has one of ten forms, each of which asks something of the
text behind it (`Lexeme.Form`), and that is all there is to the cut (`endsBefore_iff`): what
holds of every lexeme is proved by cases on its form.
-/

namespace QueryDoc.Source

/-! ## Runs of characters -/

section Runs

variable {p : Char → Bool} {front rest : List Char}

/-- What is taken ends where the first character that does not belong to it stands. -/
theorem takeWhile_append_of_head (hf : ∀ c ∈ front, p c = true)
    (hr : ∀ c ∈ rest.head?, p c = false) : (front ++ rest).takeWhile p = front := by
  rw [List.takeWhile_append_of_pos hf]
  cases rest with
  | nil => simp
  | cons c rest => simp [hr c rfl]

theorem dropWhile_append_of_head (hf : ∀ c ∈ front, p c = true)
    (hr : ∀ c ∈ rest.head?, p c = false) : (front ++ rest).dropWhile p = rest := by
  rw [List.dropWhile_append_of_pos hf]
  cases rest with
  | nil => simp
  | cons c rest => simp [hr c rfl]

/-- What is left behind a run does not go on with it. -/
theorem head_dropWhile (cs : List Char) : ∀ c ∈ (cs.dropWhile p).head?, p c = false := by
  intro c hc
  have h := List.head?_dropWhile_not p cs
  rw [Option.mem_def.mp hc] at h
  simpa using h

theorem forall_mem_takeWhile (cs : List Char) : ∀ c ∈ cs.takeWhile p, p c = true :=
  fun _ hc => List.mem_takeWhile_imp hc

end Runs

/-! ## The forms -/

/-- The forms of a lexeme with `rest` behind it. -/
inductive Lexeme.Form : Lexeme → List Char → Prop where
  | blank {c : Char} {rest : List Char} (hc : isIgnorable c = true) : Form (.ignored [c]) rest
  | comment {body rest : List Char} (hbody : ∀ c ∈ body, isLineEnd c = false)
      (hend : ∀ c ∈ rest.head?, isLineEnd c = true) : Form (.ignored ('#' :: body)) rest
  | blockString {body rest : List Char} (h : splitBlockString (body ++ rest) = (body, rest)) :
      Form (.token ⟨.string, '"' :: '"' :: '"' :: body⟩) rest
  | string {body rest : List Char} (hquotes : ¬ ['"', '"'] <+: body ++ rest)
      (h : splitString (body ++ rest) = (body, rest)) : Form (.token ⟨.string, '"' :: body⟩) rest
  | spread {rest : List Char} : Form (.token ⟨.spread, ['.', '.', '.']⟩) rest
  | dot {rest : List Char} (hdots : ¬ ['.', '.'] <+: rest) : Form (.token ⟨.unknown, ['.']⟩) rest
  | number {n : NumberText} {rest : List Char}
      (hstart : ∃ c ∈ n.text.head?, c = '-' ∨ c.isDigit = true)
      (h : splitNumber (n.text ++ rest) = (n, rest)) : Form (.token ⟨n.kind, n.text⟩) rest
  | name {name rest : List Char} (hname : isName name = true)
      (hend : ∀ c ∈ rest.head?, isNameChar c = false) : Form (.token ⟨.name, name⟩) rest
  | mark {c : Char} {rest : List Char} (hc : isMark c = true) :
      Form (.token ⟨.punctuator c, [c]⟩) rest
  /-- A character that is no part of a document. -/
  | stray {c : Char} {rest : List Char} (hc : IsStray c) : Form (.token ⟨.unknown, [c]⟩) rest

/-- What is cut off a text has one of the forms. -/
theorem form_splitLexeme (c : Char) (cs : List Char) :
    (splitLexeme c cs).1.Form (splitLexeme c cs).2 := by
  unfold splitLexeme
  split
  · next hc => exact .blank hc
  next hblank =>
  split
  · refine .comment (fun d hd => ?_) (fun d hd => ?_)
    · simpa using forall_mem_takeWhile cs d hd
    · simpa using head_dropWhile cs d hd
  next hhash =>
  split
  · split
    · next cs => exact .blockString (by rw [splitBlockString_append])
    · next hno =>
      refine .string ?_ (by rw [splitString_append])
      rw [splitString_append]
      rintro ⟨t, rfl⟩
      exact hno t rfl
  next hquote =>
  split
  · split
    · exact .spread
    · next hno => exact .dot fun ⟨t, ht⟩ => hno t ht.symm
  next hdot =>
  split
  · next hc =>
    have happ := splitNumber_append (c :: cs)
    obtain ⟨d, ds, htext⟩ := List.exists_cons_of_ne_nil (text_splitNumber_ne_nil cs hc)
    refine .number ⟨d, by rw [htext]; rfl, ?_⟩ (by rw [happ])
    rw [htext] at happ
    rwa [(List.cons.inj happ).1]
  next hnumber =>
  split
  · next hc => exact .name (isName_cons.mpr ⟨hc, forall_mem_takeWhile cs⟩) (head_dropWhile cs)
  next hname =>
  split
  · next hc => exact .mark hc
  · next hmark =>
    exact .stray ⟨Bool.eq_false_iff.mpr hblank, hhash, hquote, hdot, hnumber,
      Bool.eq_false_iff.mpr hname, Bool.eq_false_iff.mpr hmark⟩

/-! ## Each form is cut off -/

section

variable {c : Char} {cs : List Char}

/-- A character without meaning is a lexeme of its own. -/
theorem splitLexeme_blank (h : isIgnorable c = true) (cs : List Char) :
    splitLexeme c cs = (.ignored [c], cs) := by
  unfold splitLexeme
  rw [if_pos h]

/-- A number sign begins a comment, which carries no meaning. -/
theorem splitLexeme_hash (cs : List Char) :
    splitLexeme '#' cs = (.ignored ('#' :: (splitComment cs).1), (splitComment cs).2) := by
  unfold splitLexeme
  rw [if_neg (by decide), if_pos rfl]

/-- Three quotes begin a block string. -/
theorem splitLexeme_blockString (cs : List Char) :
    splitLexeme '"' ('"' :: '"' :: cs) =
      (.token ⟨.string, '"' :: '"' :: '"' :: (splitBlockString cs).1⟩,
        (splitBlockString cs).2) := by
  unfold splitLexeme
  rw [if_neg (by decide), if_neg (by decide), if_pos rfl]
  rfl

/-- A quote that is not the first of three begins a string of one line. -/
theorem splitLexeme_string (h : ¬ ['"', '"'] <+: cs) :
    splitLexeme '"' cs = (.token ⟨.string, '"' :: (splitString cs).1⟩, (splitString cs).2) := by
  unfold splitLexeme
  rw [if_neg (by decide), if_neg (by decide), if_pos rfl]
  split
  · exact absurd ⟨_, rfl⟩ h
  · rfl

theorem splitLexeme_spread (cs : List Char) :
    splitLexeme '.' ('.' :: '.' :: cs) = (.token ⟨.spread, ['.', '.', '.']⟩, cs) := rfl

/-- A dot that is not the first of three is a stray character. -/
theorem splitLexeme_dot (h : ¬ ['.', '.'] <+: cs) :
    splitLexeme '.' cs = (.token ⟨.unknown, ['.']⟩, cs) := by
  unfold splitLexeme
  rw [if_neg (by decide), if_neg (by decide), if_neg (by decide), if_pos rfl]
  split
  · exact absurd ⟨_, rfl⟩ h
  · rfl

/-- A minus sign or a digit begins a number, as far as one can be read. -/
theorem splitLexeme_number (h : c = '-' ∨ c.isDigit = true) (cs : List Char) :
    splitLexeme c cs = (.token ⟨(splitNumber (c :: cs)).1.kind, (splitNumber (c :: cs)).1.text⟩,
      (splitNumber (c :: cs)).2) := by
  obtain ⟨hblank, hhash, hquote, hdot⟩ := isNumeric_cases h
  unfold splitLexeme
  rw [if_neg (Bool.eq_false_iff.mp hblank), if_neg hhash, if_neg hquote, if_neg hdot,
    if_pos h]

/-- A letter or an underscore begins a name, which goes on as far as it can. -/
theorem splitLexeme_name (h : isNameStart c = true) (cs : List Char) :
    splitLexeme c cs =
      (.token ⟨.name, c :: cs.takeWhile isNameChar⟩, cs.dropWhile isNameChar) := by
  obtain ⟨hblank, hhash, hquote, hdot, hnumber⟩ := isNameStart_cases h
  unfold splitLexeme
  rw [if_neg (Bool.eq_false_iff.mp hblank), if_neg hhash, if_neg hquote, if_neg hdot,
    if_neg hnumber, if_pos h]

theorem splitLexeme_mark (h : isMark c = true) (cs : List Char) :
    splitLexeme c cs = (.token ⟨.punctuator c, [c]⟩, cs) := by
  obtain ⟨hblank, hhash, hquote, hdot, hnumber, hname⟩ := isMark_cases h
  unfold splitLexeme
  rw [if_neg (Bool.eq_false_iff.mp hblank), if_neg hhash, if_neg hquote, if_neg hdot,
    if_neg hnumber, if_neg (Bool.eq_false_iff.mp hname), if_pos h]

theorem splitLexeme_stray (h : IsStray c) (cs : List Char) :
    splitLexeme c cs = (.token ⟨.unknown, [c]⟩, cs) := by
  unfold splitLexeme
  rw [if_neg (Bool.eq_false_iff.mp h.ignorable), if_neg h.hash, if_neg h.quote,
    if_neg h.dot, if_neg h.number, if_neg (Bool.eq_false_iff.mp h.name),
    if_neg (Bool.eq_false_iff.mp h.mark)]

end

/-! ## The first lexeme -/

/-- The first lexeme of a text, and the rest. -/
def firstLexeme? : List Char → Option (Lexeme × List Char)
  | [] => none
  | c :: cs => some (splitLexeme c cs)

/-- Whether the text of a lexeme in front of `rest` is cut into the lexeme and `rest`. -/
def Lexeme.EndsBefore (l : Lexeme) (rest : List Char) : Prop :=
  firstLexeme? (l.text ++ rest) = some (l, rest)

/-- What has been cut off ends before the rest. -/
theorem endsBefore_of_splitLexeme {c : Char} {cs rest : List Char} {l : Lexeme}
    (h : splitLexeme c cs = (l, rest)) : l.EndsBefore rest := by
  have happ := splitLexeme_append c cs
  rw [h] at happ
  rw [Lexeme.EndsBefore, happ, firstLexeme?, h]

/-- Ending before a rest means to be cut off in front of it, whatever the first character is. -/
theorem endsBefore_iff_splitLexeme {l : Lexeme} {c : Char} {cs rest : List Char}
    (h : l.text ++ rest = c :: cs) : l.EndsBefore rest ↔ splitLexeme c cs = (l, rest) := by
  rw [Lexeme.EndsBefore, h]
  exact Option.some_inj

/-- The case of the cut that produced a lexeme tells its form. -/
theorem Lexeme.EndsBefore.form {l : Lexeme} {rest : List Char} (h : l.EndsBefore rest) :
    l.Form rest := by
  cases htext : l.text ++ rest with
  | nil =>
    rw [EndsBefore, htext] at h
    contradiction
  | cons c cs =>
    have hform := form_splitLexeme c cs
    rwa [(endsBefore_iff_splitLexeme htext).mp h] at hform

/-- A lexeme of each form is cut off whole in front of what may follow it. -/
theorem Lexeme.Form.endsBefore {l : Lexeme} {rest : List Char} (h : l.Form rest) :
    l.EndsBefore rest := by
  cases h with
  | @blank c rest hc => exact endsBefore_of_splitLexeme (splitLexeme_blank hc rest)
  | @comment body rest hbody hend =>
    have hsplit := splitLexeme_hash (body ++ rest)
    rw [splitComment, takeWhile_append_of_head (by simpa using hbody) (by simpa using hend),
      dropWhile_append_of_head (by simpa using hbody) (by simpa using hend)] at hsplit
    exact endsBefore_of_splitLexeme hsplit
  | @blockString body rest h =>
    have hsplit := splitLexeme_blockString (body ++ rest)
    rw [h] at hsplit
    exact endsBefore_of_splitLexeme hsplit
  | @string body rest hquotes h =>
    have hsplit := splitLexeme_string hquotes
    rw [h] at hsplit
    exact endsBefore_of_splitLexeme hsplit
  | @spread rest => exact endsBefore_of_splitLexeme (splitLexeme_spread rest)
  | @dot rest hdots => exact endsBefore_of_splitLexeme (splitLexeme_dot hdots)
  | @number n rest hstart h =>
    obtain ⟨c, hc, hnumber⟩ := hstart
    obtain ⟨cs, hcs⟩ := List.head?_eq_some_iff.mp hc
    have hsplit := splitLexeme_number hnumber (cs ++ rest)
    rw [← List.cons_append, ← hcs, h] at hsplit
    exact endsBefore_of_splitLexeme hsplit
  | @name name rest hname hend =>
    obtain ⟨c, cs, rfl⟩ := List.exists_cons_of_ne_nil (ne_nil_of_isName hname)
    obtain ⟨hc, hcs⟩ := isName_cons.mp hname
    have hsplit := splitLexeme_name hc (cs ++ rest)
    rw [takeWhile_append_of_head hcs hend, dropWhile_append_of_head hcs hend] at hsplit
    exact endsBefore_of_splitLexeme hsplit
  | @mark c rest hc => exact endsBefore_of_splitLexeme (splitLexeme_mark hc rest)
  | @stray c rest hc => exact endsBefore_of_splitLexeme (splitLexeme_stray hc rest)

/-- The forms say all there is to say about where a lexeme ends, so that later proofs go by cases on
them and never open the cut. -/
theorem endsBefore_iff {l : Lexeme} {rest : List Char} : l.EndsBefore rest ↔ l.Form rest :=
  ⟨Lexeme.EndsBefore.form, Lexeme.Form.endsBefore⟩

/-- No lexeme is empty, so that the cut always makes progress. -/
theorem Lexeme.EndsBefore.text_ne_nil {l : Lexeme} {rest : List Char} (h : l.EndsBefore rest) :
    l.text ≠ [] := by
  cases h.form with
  | number hstart =>
    obtain ⟨c, hc, -⟩ := hstart
    exact List.ne_nil_of_mem (List.mem_of_head? hc)
  | name hname => exact ne_nil_of_isName hname
  | _ => exact List.cons_ne_nil _ _

theorem lexemes_of_firstLexeme? {cs rest : List Char} {l : Lexeme}
    (h : firstLexeme? cs = some (l, rest)) : lexemes cs = l :: lexemes rest := by
  cases cs with
  | nil => contradiction
  | cons c cs =>
    have hs : splitLexeme c cs = (l, rest) := Option.some.inj h
    rw [lexemes, hs]

/-- A lexeme that ends before a rest is the first of the whole text. -/
theorem Lexeme.EndsBefore.lexemes_append {l : Lexeme} {rest : List Char} (h : l.EndsBefore rest) :
    lexemes (l.text ++ rest) = l :: lexemes rest :=
  lexemes_of_firstLexeme? h

theorem lexemes_blank {c : Char} (h : isIgnorable c = true) (cs : List Char) :
    lexemes (c :: cs) = .ignored [c] :: lexemes cs := by
  rw [lexemes, splitLexeme_blank h]

/-! ## Kinds and texts -/

/-- The kind of the token that a lexeme is. -/
def Lexeme.kind? (l : Lexeme) : Option TokenKind := l.token?.map Token.kind

theorem Lexeme.exists_name_of_kind? {l : Lexeme} (h : l.kind? = some .name) :
    ∃ name, l = .token ⟨.name, name⟩ := by
  cases l with
  | ignored text => contradiction
  | token t =>
    obtain ⟨kind, text⟩ := t
    cases h
    exact ⟨text, rfl⟩

theorem NumberText.kind_eq (n : NumberText) : n.kind = .int ∨ n.kind = .float := by
  unfold NumberText.kind
  split
  · exact Or.inl rfl
  · exact Or.inr rfl

/-- The form that the text of a token has by its kind. -/
def Token.HasForm (t : Token) : Prop :=
  match t.kind with
  | .name => isName t.text = true
  | .punctuator mark => isMark mark = true ∧ t.text = [mark]
  | .spread => t.text = ['.', '.', '.']
  | .int | .float => ∃ c ∈ t.text.head?, c = '-' ∨ c.isDigit = true
  | .string => t.text.head? = some '"'
  | .unknown => True

/-- A token has the form of its kind, whatever follows it. -/
theorem Lexeme.EndsBefore.hasForm {t : Token} {rest : List Char}
    (h : (Lexeme.token t).EndsBefore rest) : t.HasForm := by
  cases h.form with
  | blockString => rfl
  | string => rfl
  | spread => rfl
  | number hstart =>
    next n _ =>
    obtain hk | hk := n.kind_eq <;> simpa only [Token.HasForm, hk] using hstart
  | name hname => exact hname
  | mark hc => exact ⟨hc, rfl⟩
  | dot => trivial
  | stray => trivial

/-- A lexeme that begins with a dot is one dot or three. -/
theorem Lexeme.EndsBefore.text_of_dot {l : Lexeme} {rest : List Char} (h : l.EndsBefore rest)
    (hd : l.text.head? = some '.') : l.text = ['.'] ∨ l.text = ['.', '.', '.'] := by
  obtain ⟨body, hbody⟩ := List.head?_eq_some_iff.mp hd
  rw [endsBefore_iff_splitLexeme (by rw [hbody, List.cons_append])] at h
  by_cases hdots : ['.', '.'] <+: body ++ rest
  · obtain ⟨t, ht⟩ := hdots
    rw [← ht] at h
    obtain rfl := (congrArg Prod.fst h).symm
    exact Or.inr rfl
  · rw [splitLexeme_dot hdots] at h
    obtain rfl := (congrArg Prod.fst h).symm
    exact Or.inl rfl

end QueryDoc.Source
