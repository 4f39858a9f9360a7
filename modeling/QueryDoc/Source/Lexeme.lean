import QueryDoc.Character
import QueryDoc.Text

/-!
# QueryDoc.Source.Lexeme

Source text cut into lexemes: the tokens of a document, and the text between them that
carries no meaning (blanks, commas, line ends, byte order marks and comments).

The cut never fails. What is no token of a document is a token of kind `unknown`, a number
may be malformed, and a string without its closing quote ends at the end of its line (of
the text, for a block string), so that whoever reads the tokens can report what is wrong.

`flatMap_text_lexemes` says that nothing is lost: the lexemes make up the text.
-/

namespace QueryDoc.Source

/-! ## Tokens -/

/-- The kinds of token that matter for finding literals. -/
inductive TokenKind where
  | float
  | int
  | name
  /-- One of the marks `! $ & ( ) : = @ [ ] { | }`. -/
  | punctuator (mark : Char)
  /-- Three dots. -/
  | spread
  | string
  | unknown
deriving DecidableEq, Repr

namespace TokenKind

/-- Whether a token of this kind can be the last one of a value or of an object's field. -/
def canEndItem : TokenKind → Bool
  | float | int | name | string => true
  | punctuator mark => mark == ']' || mark == '}'
  | spread | unknown => false

/-- Whether a token of this kind can be the first one of a value or of an object's field. -/
def canStartItem : TokenKind → Bool
  | float | int | name | string => true
  | punctuator mark => mark == '$' || mark == '[' || mark == '{'
  | spread | unknown => false

end TokenKind

/-- A token with the text it consists of. -/
structure Token where
  kind : TokenKind
  text : List Char
deriving DecidableEq, Repr

/-- A piece of source text. -/
inductive Lexeme where
  /-- Text that carries no meaning. -/
  | ignored (text : List Char)
  | token (t : Token)
deriving DecidableEq, Repr

namespace Lexeme

def text : Lexeme → List Char
  | ignored text => text
  | token t => t.text

def token? : Lexeme → Option Token
  | ignored _ => none
  | token t => some t

end Lexeme

/-! ## Numbers

Each function splits a part off the front of a text and returns it with the rest. -/

def splitMinus : List Char → List Char × List Char
  | '-' :: cs => (['-'], cs)
  | cs => ([], cs)

/-- A point and the digits behind it, if any. Three dots are no point. -/
def splitFraction : List Char → List Char × List Char
  | '.' :: '.' :: '.' :: cs => ([], '.' :: '.' :: '.' :: cs)
  | '.' :: cs => ('.' :: (spanDigits cs).1, (spanDigits cs).2)
  | cs => ([], cs)

/-- A sign of either kind, if there is one. -/
def splitSign : List Char → List Char × List Char
  | '+' :: cs => (['+'], cs)
  | cs => splitMinus cs

/-- The letter `e` with a sign and digits behind it, if any. -/
def splitExponent : List Char → List Char × List Char
  | [] => ([], [])
  | c :: cs =>
    if c = 'e' ∨ c = 'E' then
      let (sign, rest) := splitSign cs
      (c :: (sign ++ (spanDigits rest).1), (spanDigits rest).2)
    else ([], c :: cs)

/-- The parts of a number: what makes it an integer, and what makes it a float. -/
structure NumberText where
  whole : List Char
  fraction : List Char
  exponent : List Char

namespace NumberText

def text (n : NumberText) : List Char := n.whole ++ n.fraction ++ n.exponent

/-- A number with a point or an exponent is a float. -/
def kind (n : NumberText) : TokenKind :=
  if n.fraction = [] ∧ n.exponent = [] then .int else .float

end NumberText

/-- A number, of which each part may be missing or have no digits. -/
def splitNumber (cs : List Char) : NumberText × List Char :=
  let (minus, cs) := splitMinus cs
  let (digits, cs) := spanDigits cs
  let (fraction, cs) := splitFraction cs
  let (exponent, cs) := splitExponent cs
  (⟨minus ++ digits, fraction, exponent⟩, cs)

/-! ## Strings -/

/-- What follows the opening quote of a string, up to and including the closing quote. A
backslash takes the next character with it, even a quote or a line end. -/
def splitString : List Char → List Char × List Char
  | [] => ([], [])
  | '\\' :: c :: cs =>
    let (taken, rest) := splitString cs
    ('\\' :: c :: taken, rest)
  | c :: cs =>
    if c = '"' then (['"'], cs)
    else if isLineEnd c then ([], c :: cs)
    else
      let (taken, rest) := splitString cs
      (c :: taken, rest)

/-- What follows the opening quotes of a block string, up to and including the closing ones.
Three quotes behind a backslash close nothing. -/
def splitBlockString : List Char → List Char × List Char
  | [] => ([], [])
  | '\\' :: '"' :: '"' :: '"' :: cs =>
    let (taken, rest) := splitBlockString cs
    ('\\' :: '"' :: '"' :: '"' :: taken, rest)
  | '"' :: '"' :: '"' :: cs => (['"', '"', '"'], cs)
  | c :: cs =>
    let (taken, rest) := splitBlockString cs
    (c :: taken, rest)

/-- A comment up to the end of its line, which is not part of it. -/
def splitComment (cs : List Char) : List Char × List Char :=
  (cs.takeWhile fun c => !isLineEnd c, cs.dropWhile fun c => !isLineEnd c)

/-! ## Lexemes -/

/-- The lexeme that starts with the character `c` in front of `cs`, and the rest. -/
def splitLexeme (c : Char) (cs : List Char) : Lexeme × List Char :=
  if isIgnorable c then (.ignored [c], cs)
  else if c = '#' then
    let (taken, rest) := splitComment cs
    (.ignored ('#' :: taken), rest)
  else if c = '"' then
    match cs with
    | '"' :: '"' :: cs =>
      let (taken, rest) := splitBlockString cs
      (.token ⟨.string, '"' :: '"' :: '"' :: taken⟩, rest)
    | cs =>
      let (taken, rest) := splitString cs
      (.token ⟨.string, '"' :: taken⟩, rest)
  else if c = '.' then
    match cs with
    | '.' :: '.' :: cs => (.token ⟨.spread, ['.', '.', '.']⟩, cs)
    | cs => (.token ⟨.unknown, ['.']⟩, cs)
  else if c = '-' ∨ c.isDigit then
    let (number, rest) := splitNumber (c :: cs)
    (.token ⟨number.kind, number.text⟩, rest)
  else if isNameStart c then
    (.token ⟨.name, c :: cs.takeWhile isNameChar⟩, cs.dropWhile isNameChar)
  else if isMark c then (.token ⟨.punctuator c, [c]⟩, cs)
  else (.token ⟨.unknown, [c]⟩, cs)

/-! ## Nothing is lost -/

theorem splitMinus_append (cs : List Char) : (splitMinus cs).1 ++ (splitMinus cs).2 = cs := by
  unfold splitMinus
  split <;> rfl

theorem splitSign_append (cs : List Char) : (splitSign cs).1 ++ (splitSign cs).2 = cs := by
  unfold splitSign
  split
  · rfl
  · exact splitMinus_append _

theorem splitFraction_append (cs : List Char) :
    (splitFraction cs).1 ++ (splitFraction cs).2 = cs := by
  unfold splitFraction
  split
  · rfl
  · rw [List.cons_append, spanDigits_append]
  · rfl

theorem splitExponent_append (cs : List Char) :
    (splitExponent cs).1 ++ (splitExponent cs).2 = cs := by
  unfold splitExponent
  split
  · rfl
  · split
    · next c cs _ =>
      simp only [List.cons_append, List.append_assoc, spanDigits_append, splitSign_append]
    · rfl

theorem splitNumber_append (cs : List Char) :
    (splitNumber cs).1.text ++ (splitNumber cs).2 = cs := by
  simp only [splitNumber, NumberText.text, List.append_assoc, splitExponent_append,
    splitFraction_append, spanDigits_append, splitMinus_append]

theorem splitString_append (cs : List Char) : (splitString cs).1 ++ (splitString cs).2 = cs := by
  fun_induction splitString cs <;> simp_all

theorem splitBlockString_append (cs : List Char) :
    (splitBlockString cs).1 ++ (splitBlockString cs).2 = cs := by
  fun_induction splitBlockString cs <;> simp_all

theorem splitComment_append (cs : List Char) :
    (splitComment cs).1 ++ (splitComment cs).2 = cs :=
  List.takeWhile_append_dropWhile

/-- A number that starts with a minus sign or a digit has a text. -/
theorem text_splitNumber_ne_nil {c : Char} (cs : List Char) (h : c = '-' ∨ c.isDigit = true) :
    (splitNumber (c :: cs)).1.text ≠ [] := by
  rcases h with rfl | h
  · simp [splitNumber, splitMinus, NumberText.text]
  · by_cases hm : c = '-'
    · subst hm
      exact absurd h (by decide)
    · have hs : splitMinus (c :: cs) = ([], c :: cs) := by
        unfold splitMinus
        split
        · next e => exact absurd (List.cons.inj e).1 hm
        · rfl
      simp [splitNumber, hs, spanDigits, NumberText.text, h]

theorem splitLexeme_append (c : Char) (cs : List Char) :
    (splitLexeme c cs).1.text ++ (splitLexeme c cs).2 = c :: cs := by
  unfold splitLexeme
  split
  · rfl
  split
  · next h => simp [Lexeme.text, h, splitComment_append]
  split
  · next h =>
    subst h
    split
    · simp [Lexeme.text, splitBlockString_append]
    · simp [Lexeme.text, splitString_append]
  split
  · next h =>
    subst h
    split <;> rfl
  split
  · exact splitNumber_append (c :: cs)
  split
  · simp [Lexeme.text, List.takeWhile_append_dropWhile]
  split <;> rfl

theorem text_splitLexeme_ne_nil (c : Char) (cs : List Char) :
    (splitLexeme c cs).1.text ≠ [] := by
  unfold splitLexeme
  split
  · simp [Lexeme.text]
  split
  · simp [Lexeme.text]
  split
  · split <;> simp [Lexeme.text]
  split
  · split <;> simp [Lexeme.text]
  split
  · next h => exact text_splitNumber_ne_nil cs h
  split
  · simp [Lexeme.text]
  split <;> simp [Lexeme.text]

theorem length_splitLexeme_lt (c : Char) (cs : List Char) :
    (splitLexeme c cs).2.length < (c :: cs).length := by
  have hlen := congrArg List.length (splitLexeme_append c cs)
  rw [List.length_append] at hlen
  have hpos := List.length_pos_iff.mpr (text_splitLexeme_ne_nil c cs)
  omega

/-! ## The whole text -/

/-- The lexemes of a text in order. -/
def lexemes : List Char → List Lexeme
  | [] => []
  | c :: cs =>
    let next := splitLexeme c cs
    next.1 :: lexemes next.2
termination_by cs => cs.length
decreasing_by exact length_splitLexeme_lt c cs

/-- The tokens of a text in order. -/
def tokens (cs : List Char) : List Token := (lexemes cs).filterMap Lexeme.token?

/-- The lexemes make up the text. -/
theorem flatMap_text_lexemes (cs : List Char) : (lexemes cs).flatMap Lexeme.text = cs := by
  fun_induction lexemes cs with
  | case1 => rfl
  | case2 c cs next ih => rw [List.flatMap_cons, ih, splitLexeme_append]

/-! ## Places in the text -/

/-- A token with the bytes of the text that it covers: from `start` up to, but without,
`stop`. -/
structure PlacedToken where
  token : Token
  start : Nat
  stop : Nat
deriving DecidableEq, Repr

/-- The tokens among lexemes that start at the given byte. -/
def placeTokens (start : Nat) : List Lexeme → List PlacedToken
  | [] => []
  | .ignored text :: rest => placeTokens (start + byteSize text) rest
  | .token t :: rest =>
    ⟨t, start, start + byteSize t.text⟩ :: placeTokens (start + byteSize t.text) rest

/-- The tokens of a source text and the bytes that they cover. -/
def placedTokens (source : String) : List PlacedToken := placeTokens 0 (lexemes source.toList)

end QueryDoc.Source
