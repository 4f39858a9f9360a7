import QueryDoc.Proofs.Grammar.Exact
import QueryDoc.Proofs.Grammar.Literals
import QueryDoc.Proofs.Source.Float

/-!
# QueryDoc.Proofs.Grammar.Spelling

Texts that spell terminals one after the other. Built and printed documents are such texts:
each terminal has one spelling, and nothing but blanks, commas and line ends stands between
two of them.

`Spelled.tokens` and `Spelled.scanFrom` say what both cuts make of such a text: the terminals
that it spells, if the brackets among them find room.
-/

namespace QueryDoc.Grammar

open Source (StartsQuietly NumberText)

/-! ## Spellings -/

/-- The text that a terminal is written as. The characters of a string stand for themselves,
and a float has a point. -/
def Terminal.spelling : Terminal → List Char
  | mark c => [c]
  | spread => ['.', '.', '.']
  | name s => s.toList
  | int n => Decimal.intText n.toInt
  | float x => Binary64.pointed x.shortText
  | string s => '"' :: (s.toList ++ ['"'])

/-- A terminal as a token of source text. -/
def Terminal.token (u : Terminal) : Source.Token := ⟨u.kind, u.spelling⟩

/-- Characters that a string between quotes may hold as they are. -/
def isBare (c : Char) : Bool :=
  decide (' ' ≤ c) && decide (c.toNat ≤ 0xFFFF) && c != '"' && c != '\\'

/-- A terminal whose spelling can be read. -/
def Terminal.IsPlain : Terminal → Prop
  | mark c => isMark c = true
  | name s => isName s.toList = true
  | string s => ∀ c ∈ s.toList, isBare c = true
  | _ => True

/-- The kind of the token that the strict cut makes of a terminal's spelling. -/
def Terminal.strictKind : Terminal → TokenKind
  | mark c => .punctuator c
  | spread => .spread
  | name _ => .name
  | int _ => .int
  | float _ => .float
  | string _ => .string

/-- A terminal as a token of the strict cut. -/
def Terminal.strictToken (u : Terminal) : Token := ⟨u.strictKind, u.spelling⟩

theorem toSource_strictToken (u : Terminal) : u.strictToken.toSource = u.token := by
  cases u <;> rfl

/-! ## Integers -/

/-- The digits of a number other than zero. -/
theorem exists_digits {n : Nat} (h : 0 < n) :
    ∃ c ds, Decimal.digits n = c :: ds ∧ c ≠ '0' ∧ c.isDigit = true ∧
      ds.all Char.isDigit = true := by
  obtain ⟨c, ds, hds⟩ := List.exists_cons_of_ne_nil (Source.digits_ne_nil n)
  have hzero := head_digits_ne_zero h
  have hdigit : ∀ d ∈ c :: ds, d.isDigit = true := fun d hd =>
    Decimal.isDigit_of_mem_digits (hds ▸ hd)
  rw [hds, List.head?_cons, ne_eq, Option.some.injEq] at hzero
  rw [List.forall_mem_cons] at hdigit
  exact ⟨c, ds, hds, hzero, hdigit.1, List.all_eq_true.mpr hdigit.2⟩

theorem isDigit_ne_minus {c : Char} (h : c.isDigit = true) : c ≠ '-' := by
  rintro rfl
  exact absurd h (by decide)

theorem isInt_digits (n : Nat) : isInt (Decimal.digits n) = true := by
  by_cases h : 0 < n
  · obtain ⟨c, ds, hds, hzero, hdigit, hall⟩ := exists_digits h
    have hminus := isDigit_ne_minus hdigit
    rw [hds]
    unfold isInt
    split <;> simp_all
  · obtain rfl : n = 0 := by omega
    rfl

theorem isInt_minus_digits {n : Nat} (h : 0 < n) : isInt ('-' :: Decimal.digits n) = true := by
  obtain ⟨c, ds, hds, hzero, hdigit, hall⟩ := exists_digits h
  rw [hds]
  unfold isInt
  split <;> grind

theorem isInt_intText (n : Int) : isInt (Decimal.intText n) = true := by
  unfold Decimal.intText
  split
  · next hn => exact isInt_minus_digits (by omega)
  · exact isInt_digits n.natAbs

/-- An integer is spelled with digits behind an optional minus sign. -/
theorem mem_intText {n : Int} {c : Char} (h : c ∈ Decimal.intText n) :
    c = '-' ∨ c.isDigit = true := by
  unfold Decimal.intText at h
  split at h
  · cases List.mem_cons.mp h with
    | inl heq => exact Or.inl heq
    | inr hmem => exact Or.inr (Decimal.isDigit_of_mem_digits hmem)
  · exact Or.inr (Decimal.isDigit_of_mem_digits h)

theorem intText_ne_nil (n : Int) : Decimal.intText n ≠ [] := by
  unfold Decimal.intText
  split
  · exact List.cons_ne_nil _ _
  · exact Source.digits_ne_nil _

theorem splitAtLast_eq_none {p : Char → Bool} {cs : List Char} (h : ∀ c ∈ cs, p c = false) :
    splitAtLast p cs = none := by
  induction cs with
  | nil => rfl
  | cons c cs ih =>
    obtain ⟨hc, hcs⟩ := List.forall_mem_cons.mp h
    simp [splitAtLast, ih hcs, hc]

theorem numberKind?_intText (n : Int) : numberKind? (Decimal.intText n) = some .int := by
  have hsafe {c : Char} (hc : c = '-' ∨ c.isDigit = true) :
      (c == '.') = false ∧ isExponentMark c = false := by
    cases hc with
    | inl hminus =>
      subst hminus
      exact ⟨rfl, rfl⟩
    | inr hdigit =>
      constructor
      · exact beq_false_of_ne fun h => absurd hdigit (h ▸ by decide)
      · unfold isExponentMark
        rw [Bool.or_eq_false_iff]
        constructor
        · exact beq_false_of_ne fun h => absurd hdigit (h ▸ by decide)
        · exact beq_false_of_ne fun h => absurd hdigit (h ▸ by decide)
  have hdot : splitAtLast (· == '.') (Decimal.intText n) = none :=
    splitAtLast_eq_none fun c hc => (hsafe (mem_intText hc)).1
  have hmark : splitAtLast isExponentMark (Decimal.intText n) = none :=
    splitAtLast_eq_none fun c hc => (hsafe (mem_intText hc)).2
  simp [numberKind?, hdot, hmark, isInt_intText]

/-- The spelling of an integer of 64 bits reads back as the integer. -/
theorem readInt?_intText (n : Int64) : readInt? (Decimal.intText n.toInt) = some n := by
  have hlow := n.minValue_le_toInt
  have hhigh := n.toInt_le
  unfold readInt? Decimal.intText
  by_cases hn : n.toInt < 0
  · have habs : -((n.toInt.natAbs : Nat) : Int) = n.toInt := by omega
    rw [if_pos hn]
    simp only [Decimal.ofDigits_digits, habs]
    rw [if_pos ⟨hlow, hhigh⟩, Int64.ofInt_toInt]
  · have habs : ((n.toInt.natAbs : Nat) : Int) = n.toInt := by omega
    rw [if_neg hn]
    split
    · next hdigits =>
      have hdigit := Decimal.isDigit_of_mem_digits (hdigits ▸ List.mem_cons_self)
      exact absurd hdigit (by decide)
    · simp only [Decimal.ofDigits_digits, habs]
      rw [if_pos ⟨hlow, hhigh⟩, Int64.ofInt_toInt]

/-! ## Strings -/

theorem isBare_ne {c : Char} (h : isBare c = true) : c ≠ '"' ∧ c ≠ '\\' ∧ c ≠ '\n' ∧ c ≠ '\r' := by
  simp only [isBare, Bool.and_eq_true, decide_eq_true_eq, bne_iff_ne] at h
  obtain ⟨⟨⟨hblank, -⟩, hquote⟩, hback⟩ := h
  refine ⟨hquote, hback, ?_, ?_⟩
  · rintro rfl
    exact absurd hblank (by decide)
  · rintro rfl
    exact absurd hblank (by decide)

/-- Characters that end no string and escape nothing. -/
def isInner (c : Char) : Bool := c != '"' && c != '\\' && !isLineEnd c

theorem isInner_of_isBare {c : Char} (h : isBare c = true) : isInner c = true := by
  obtain ⟨hquote, hback, hline, hreturn⟩ := isBare_ne h
  simp [isInner, isLineEnd, hquote, hback, hline, hreturn]

theorem isInner_ne {c : Char} (h : isInner c = true) :
    c ≠ '"' ∧ c ≠ '\\' ∧ c ≠ '\n' ∧ c ≠ '\r' := by
  simp only [isInner, isLineEnd, Bool.and_eq_true, Bool.not_eq_true', Bool.or_eq_false_iff,
    bne_iff_ne, beq_eq_false_iff_ne] at h
  exact ⟨h.1.1, h.1.2, h.2.1, h.2.2⟩

theorem splitString?_inner {body : List Char} (h : ∀ c ∈ body, isInner c = true)
    {cs : List Char} {s : List Char × List Char} (hs : splitString? cs = some s) :
    splitString? (body ++ cs) = some (body ++ s.1, s.2) := by
  induction body with
  | nil => exact hs
  | cons c body ih =>
    obtain ⟨hc, hbody⟩ := List.forall_mem_cons.mp h
    obtain ⟨hquote, hback, hline, -⟩ := isInner_ne hc
    rw [List.cons_append, splitString?, if_neg hquote, if_neg hline, ih hbody]
    · rfl
    · intro x xs hx
      exact absurd hx hback

theorem splitString?_quote : splitString? ['"'] = some (['"'], []) := by simp [splitString?]

theorem hasBareReturn_of_not_mem {cs : List Char} (h : '\r' ∉ cs) : hasBareReturn cs = false := by
  fun_induction hasBareReturn cs with
  | case1 => rfl
  | case2 _ cs ih => exact ih (by simp_all)
  | case3 c cs _ ih =>
    rw [List.mem_cons, not_or] at h
    rw [ih h.2, beq_false_of_ne (Ne.symm h.1)]
    rfl

/-- Text between quotes that is cut off as a whole is a string. -/
theorem isExact_quoted {body : List Char} (hhead : body.head? ≠ some '"')
    (h : splitString? (body ++ ['"']) = some (body ++ ['"'], [])) :
    (Token.mk .string ('"' :: (body ++ ['"']))).IsExact := by
  refine isExact_iff.mpr (.string ?_ h)
  rintro ⟨more, hmore⟩
  cases body with
  | nil => simp at hmore
  | cons c body => exact hhead (by rw [← (List.cons.inj hmore).1]; rfl)

/-- A string may be written as it is if nothing in it would end it. -/
theorem isExact_verbatim {body : List Char} (h : ∀ c ∈ body, isInner c = true) :
    (Token.mk .string ('"' :: (body ++ ['"']))).IsExact := by
  refine isExact_quoted (fun hhead => ?_) (splitString?_inner h splitString?_quote)
  exact absurd (h _ (List.mem_of_head? hhead)) (by decide)

theorem not_hasBareReturn_verbatim {body : List Char} (h : ∀ c ∈ body, isInner c = true) :
    ¬ (Token.mk .string ('"' :: (body ++ ['"']))).HasBareReturn := by
  rintro ⟨-, hreturn⟩
  rw [List.tail_cons, hasBareReturn_of_not_mem] at hreturn
  · contradiction
  · intro hmem
    obtain hbody | hquote := List.mem_append.mp hmem
    · exact (isInner_ne (h _ hbody)).2.2.2 rfl
    · simp at hquote

theorem decode?_append {body : List Char} (h : ∀ c ∈ body, c ≠ '\\') {cs ds : List Char}
    (hd : QuotedString.decode? cs = some ds) :
    QuotedString.decode? (body ++ cs) = some (body ++ ds) := by
  induction body with
  | nil => exact hd
  | cons c body ih =>
    obtain ⟨hback, hbody⟩ := List.forall_mem_cons.mp h
    rw [List.cons_append, QuotedString.decode?, if_neg hback, ih hbody]
    · rfl
    · intro a b x d rest hx
      exact absurd hx hback
    · intro x xs hx
      exact absurd hx hback

/-- The spelling of a terminal reads back as the terminal. Floats are not read: they are held
back. -/
theorem terminal?_strictToken {u : Terminal} (h : u.IsPlain) (hf : u.kind ≠ .float) :
    u.strictToken.terminal? = some u := by
  cases u with
  | mark c => rfl
  | spread => rfl
  | name s => simp [Terminal.strictToken, Terminal.strictKind, Terminal.spelling, Token.terminal?]
  | int n =>
    simp [Terminal.strictToken, Terminal.strictKind, Terminal.spelling, Token.terminal?,
      readInt?_intText]
  | float x => contradiction
  | string s =>
    have hinner : inner 1 (Terminal.string s).spelling = s.toList := by
      simp [inner, Terminal.spelling]
    have hread := decode?_append (fun c hc => (isBare_ne (h c hc)).2.1)
      (show QuotedString.decode? [] = some [] from rfl)
    rw [List.append_nil] at hread
    simp [Terminal.strictToken, Terminal.strictKind, Token.terminal?, hinner, hread]

/-! ## One terminal -/

/-- Whether the spelling of a terminal needs a stop behind it. -/
def Terminal.isOpen : Terminal → Bool
  | mark c => c == '\x7d'
  | spread => false
  | _ => true

theorem isExact_int (n : Int64) : (Terminal.int n).strictToken.IsExact := by
  obtain ⟨c, cs, hcs⟩ := List.exists_cons_of_ne_nil (intText_ne_nil n.toInt)
  have hc : c ∈ (Decimal.intText n.toInt).head? := by
    rw [hcs]
    rfl
  exact isExact_iff.mpr (.number ⟨c, hc, mem_intText (List.mem_of_head? hc)⟩
    (numberKind?_intText n.toInt) (fun d hd => not_endsNumber_of_numeric (mem_intText hd))
    fun _ hd => by contradiction)

theorem isExact_strictToken {u : Terminal} (h : u.IsPlain) (hf : u.kind ≠ .float) :
    u.strictToken.IsExact := by
  cases u with
  | mark c => exact isExact_iff.mpr (.mark h)
  | spread => exact isExact_iff.mpr .spread
  | name s => exact isExact_name h
  | int n => exact isExact_int n
  | float x => contradiction
  | string s => exact isExact_verbatim fun c hc => isInner_of_isBare (h c hc)

theorem isOpen_kind (u : Terminal) : isOpen u.kind = u.isOpen := by
  cases u <;> rfl

/-- The strict cut finds the terminal that a text begins with. -/
theorem endsBefore_strictToken {u : Terminal} (h : u.IsPlain) (hf : u.kind ≠ .float)
    {rest : List Char} (hr : u.isOpen = true → Stops rest) : u.strictToken.EndsBefore rest := by
  refine (isExact_strictToken h hf).endsBefore fun ho => hr ?_
  rwa [← isOpen_kind, show u.kind = u.strictToken.kind.toSource from
    congrArg Source.Token.kind (toSource_strictToken u).symm]

theorem exists_head_float (x : Binary64) :
    ∃ c cs, Binary64.pointed x.shortText = c :: cs ∧ (c = '-' ∨ c.isDigit = true) := by
  obtain ⟨n, htext, -, hn⟩ := x.exists_pointed_shortText
  obtain ⟨minus, ds, hwhole, hminus, hds⟩ := hn.digits
  obtain ⟨d, ds, rfl⟩ := List.exists_cons_of_ne_nil hds.1
  rw [← htext, NumberText.text, hwhole]
  obtain rfl | rfl := hminus
  · exact ⟨d, _, rfl, Or.inr (hds.2 d List.mem_cons_self)⟩
  · exact ⟨'-', _, rfl, Or.inl rfl⟩

theorem endsBefore_float (x : Binary64) {rest : List Char} (hr : Stops rest) :
    (Source.Lexeme.token (Terminal.float x).token).EndsBefore rest := by
  obtain ⟨n, htext, hkind, hn⟩ := x.exists_pointed_shortText
  obtain ⟨c, cs, hcs, hc⟩ := exists_head_float x
  have hends := endsBefore_number hn.regular ⟨c, by simp [htext, hcs], hc⟩ hr
  rwa [hkind, htext] at hends

/-- The lenient cut finds the terminal that a text begins with. -/
theorem endsBefore_token {u : Terminal} (h : u.IsPlain) {rest : List Char}
    (hr : u.isOpen = true → Stops rest) : (Source.Lexeme.token u.token).EndsBefore rest := by
  by_cases hf : u.kind = .float
  · cases u with
    | float x => exact endsBefore_float x (hr rfl)
    | _ => contradiction
  · rw [← toSource_strictToken]
    refine (endsBefore_strictToken h hf hr).lexeme fun hreturn => ?_
    cases u with
    | string s => exact not_hasBareReturn_verbatim (fun c hc => isInner_of_isBare (h c hc)) hreturn
    | _ => exact absurd hreturn.1 (by simp [Terminal.strictToken, Terminal.strictKind])

/-! ## Texts that spell terminals -/

/-- A text that spells terminals, with nothing but characters without meaning between them,
and a stop behind each that needs one. -/
inductive Spelled : List Char → List Terminal → Prop where
  | nil : Spelled [] []
  | blank {c : Char} {cs : List Char} {us : List Terminal} (hc : isIgnorable c = true)
    (h : Spelled cs us) : Spelled (c :: cs) us
  | terminal {u : Terminal} {cs : List Char} {us : List Terminal} (hu : u.IsPlain)
    (hr : u.isOpen = true → Stops cs) (h : Spelled cs us) : Spelled (u.spelling ++ cs) (u :: us)

namespace Spelled

theorem isPlain (h : Spelled cs us) : ∀ u ∈ us, u.IsPlain := by
  induction h with
  | nil => simp
  | blank _ _ ih => exact ih
  | terminal hu _ _ ih => exact List.forall_mem_cons.mpr ⟨hu, ih⟩

theorem lexemes_terminal {u : Terminal} (hu : u.IsPlain) {cs : List Char}
    (hr : u.isOpen = true → Stops cs) :
    Source.lexemes (u.spelling ++ cs) = .token u.token :: Source.lexemes cs :=
  (endsBefore_token hu hr).lexemes_append

/-- The tokens of a text that spells terminals. -/
theorem tokens (h : Spelled cs us) : Source.tokens cs = us.map Terminal.token := by
  induction h with
  | nil => simp [Source.tokens, Source.lexemes]
  | @blank c cs us hc _ ih =>
    rw [Source.tokens, Source.lexemes_blank hc]
    exact ih
  | @terminal u cs us hu hr _ ih =>
    rw [Source.tokens, lexemes_terminal hu hr, List.map_cons, ← ih]
    rfl

end Spelled

/-! ## The strict cut -/

/-- Whether the brackets among tokens find room. -/
def hasRoom (room : Nat) : List Source.Token → Bool
  | [] => true
  | t :: ts =>
    match t.kind with
    | .punctuator mark =>
      match roomAfter room (.punctuator mark) with
      | none => false
      | some left => hasRoom left ts
    | _ => hasRoom room ts

/-- What a token adds to the number of open brackets. -/
def bracketStep : Source.TokenKind → Int
  | .punctuator mark =>
    if mark = '(' ∨ mark = '[' ∨ mark = '\x7b' then 1
    else if mark = ')' ∨ mark = ']' ∨ mark = '\x7d' then -1
    else 0
  | _ => 0

/-- The number of brackets that are open behind tokens. -/
def openBrackets (ts : List Source.Token) : Int := (ts.map fun t => bracketStep t.kind).sum

theorem openBrackets_cons (t : Source.Token) (ts : List Source.Token) :
    openBrackets (t :: ts) = bracketStep t.kind + openBrackets ts := List.sum_cons

/-- The room behind a mark. -/
theorem roomAfter_punctuator (room : Nat) (mark : Char) :
    (roomAfter room (.punctuator mark) = none ∧ (room : Int) < bracketStep (.punctuator mark)) ∨
      ∃ left, roomAfter room (.punctuator mark) = some left ∧
        (left : Int) = room - bracketStep (.punctuator mark) := by
  rw [roomAfter, bracketStep]
  split
  · split
    · next hroom => exact .inl ⟨rfl, by omega⟩
    · exact .inr ⟨room - 1, rfl, by omega⟩
  · split
    · exact .inr ⟨room + 1, rfl, by omega⟩
    · exact .inr ⟨room, rfl, by omega⟩

/-- The brackets find room exactly if there is no place where more of them are open. -/
theorem hasRoom_iff (room : Nat) (ts : List Source.Token) :
    hasRoom room ts = true ↔ ∀ n, openBrackets (ts.take n) ≤ room := by
  induction ts generalizing room with
  | nil => simp [hasRoom, openBrackets]
  | cons t ts ih =>
    have hshift : (∀ n, openBrackets ((t :: ts).take n) ≤ room) ↔
        ∀ n, openBrackets (ts.take n) ≤ room - bracketStep t.kind := by
      constructor
      · intro h n
        have hn := h (n + 1)
        rw [List.take_succ_cons, openBrackets_cons] at hn
        omega
      · intro h n
        cases n with
        | zero => simp [openBrackets]
        | succ n =>
          have hn := h n
          rw [List.take_succ_cons, openBrackets_cons]
          omega
    rw [hshift]
    cases hkind : t.kind with
    | punctuator mark =>
      rw [hasRoom, hkind]
      obtain ⟨hnone, hfull⟩ | ⟨left, hsome, hleft⟩ := roomAfter_punctuator room mark
      · have hempty : openBrackets (ts.take 0) = 0 := rfl
        simp only [hnone, Bool.false_eq_true, false_iff]
        intro h
        have hstart := h 0
        omega
      · simp only [hsome, ih, hleft]
    | _ => simp [hasRoom, hkind, bracketStep, ih]

theorem hasRoom_token (room : Nat) (u : Terminal) (ts : List Source.Token) :
    hasRoom room (u.token :: ts) =
      match roomAfter room u.strictKind with
      | none => false
      | some left => hasRoom left ts := by
  cases u <;> rfl

theorem scanFrom_blank {c : Char} (h : isIgnorable c = true) (room : Nat) (p : Position)
    (cs : List Char) : scanFrom room p (c :: cs) = scanFrom room (p.pastIgnorable c) cs := by
  rw [scanFrom, if_pos h]

theorem Token.EndsBefore.scanFrom {t : Token} {rest : List Char} (h : t.EndsBefore rest)
    (room : Nat) (p : Position) :
    scanFrom room p (t.text ++ rest) =
      match roomAfter room t.kind with
      | none => .ended p false
      | some room => (scanFrom room (p.pastToken t) rest).cons t p := by
  obtain ⟨c, cs, htext, hignorable, hhash, hsplit⟩ := h
  rw [htext, Grammar.scanFrom, if_neg (Bool.not_eq_true _ ▸ hignorable), if_neg hhash]
  split
  · next hnone => rw [hsplit] at hnone; contradiction
  · next t' rest' hsome =>
    rw [hsplit] at hsome
    cases hsome
    rfl

/-- The strict cut of a text that spells terminals goes through if the brackets find room, and
finds the terminals. -/
theorem Spelled.scanFrom (h : Spelled cs us) (hf : ∀ u ∈ us, u.kind ≠ .float) (room : Nat)
    (p : Position) :
    (scanFrom room p cs).complete = hasRoom room (us.map Terminal.token) ∧
      (hasRoom room (us.map Terminal.token) = true →
        (scanFrom room p cs).items.map Prod.fst = us.map Terminal.strictToken) := by
  induction h generalizing room p with
  | nil => simp [Grammar.scanFrom, Scan.ended, hasRoom]
  | @blank c cs us hc _ ih =>
    rw [scanFrom_blank hc]
    exact ih hf room _
  | @terminal u cs us hu hr _ ih =>
    obtain ⟨hfu, hfus⟩ := List.forall_mem_cons.mp hf
    have hscan := (endsBefore_strictToken hu hfu hr).scanFrom room p
    rw [List.map_cons, hasRoom_token]
    rw [show u.strictToken.text ++ cs = u.spelling ++ cs from rfl,
      show u.strictToken.kind = u.strictKind from rfl] at hscan
    rw [hscan]
    cases roomAfter room u.strictKind with
    | none => simp [Scan.ended]
    | some left =>
      obtain ⟨hcomplete, hitems⟩ := ih hfus left (p.pastToken u.strictToken)
      refine ⟨hcomplete, fun h => ?_⟩
      show u.strictToken :: (Grammar.scanFrom left (p.pastToken u.strictToken) cs).items.map
        Prod.fst = _
      rw [hitems h, List.map_cons]

end QueryDoc.Grammar
