import QueryDoc.Decimal
import QueryDoc.Source.Lexeme

/-!
# QueryDoc.Source.Mask

Float literals and object values of a source text, held back so that a parser and a printer
in between cannot change them.

`mask` cuts a text into segments: lexemes that stay, and runs of lexemes that are held
back, each a float literal outside all objects or an outermost object value. The masked
text has a placeholder in the place of each run, a name that the text does not contain.
`Masked.unmask` writes the literals back in place of the placeholders, each laid out in
one way (`layOut`).
-/

namespace QueryDoc.Source

/-! ## Finding objects and floats -/

/-- What an opening bracket has opened. -/
inductive Bracket where
  /-- A brace that holds selections. -/
  | block
  | list
  /-- A brace that holds the fields of an object value. -/
  | object
  | parentheses
deriving DecidableEq, Repr

/-- Whether a brace opens an object value: behind a colon, an opening bracket or an equals
sign, and anywhere directly in a list. -/
def opensObject (nesting : List Bracket) (previous : Option TokenKind) : Bool :=
  previous == some (.punctuator ':') || previous == some (.punctuator '[') ||
    previous == some (.punctuator '=') || nesting.head? == some .list

/-- What a token means for the runs that are held back. -/
inductive Role where
  /-- The brace that opens an object value. -/
  | opensObject
  /-- The brace that closes an object value inside no other. -/
  | closesOutermost
  | float
  | other
deriving DecidableEq, Repr

/-- The role of a token behind a token of kind `previous`, and the open brackets behind it,
innermost first. A closing bracket closes the innermost one, whichever that is. -/
def roleOf (nesting : List Bracket) (previous : Option TokenKind) (kind : TokenKind) :
    Role × List Bracket :=
  match kind with
  | .float => (.float, nesting)
  | .punctuator mark =>
    if mark = '{' then
      if opensObject nesting previous then (.opensObject, .object :: nesting)
      else (.other, .block :: nesting)
    else if mark = '}' then
      match nesting with
      | .object :: outer => (if .object ∈ outer then .other else .closesOutermost, outer)
      | nesting => (.other, nesting.tail)
    else if mark = '[' then (.other, .list :: nesting)
    else if mark = '(' then (.other, .parentheses :: nesting)
    else if mark = ']' ∨ mark = ')' then (.other, nesting.tail)
    else (.other, nesting)
  | _ => (.other, nesting)

/-- A piece of a masked text. -/
inductive Segment where
  | kept (l : Lexeme)
  /-- Lexemes that are held back behind one placeholder. -/
  | held (run : List Lexeme)
deriving DecidableEq, Repr

/-- The lexemes of a segment. -/
def Segment.lexemes : Segment → List Lexeme
  | kept l => [l]
  | held run => run

/-- The segments of the lexemes behind a token of kind `previous` inside these brackets.
`pending` are the lexemes of an object value that has not been closed yet, the latest one
first; if the text ends before that, they stay. -/
def segmentsFrom (nesting : List Bracket) (previous : Option TokenKind)
    (pending : Option (List Lexeme)) : List Lexeme → List Segment
  | [] => (pending.getD []).reverse.map .kept
  | .ignored text :: rest =>
    match pending with
    | none => .kept (.ignored text) :: segmentsFrom nesting previous none rest
    | some run => segmentsFrom nesting previous (some (.ignored text :: run)) rest
  | .token t :: rest =>
    let (role, nesting) := roleOf nesting previous t.kind
    match role, pending with
    | .opensObject, none => segmentsFrom nesting (some t.kind) (some [.token t]) rest
    | .closesOutermost, some run =>
      .held (.token t :: run).reverse :: segmentsFrom nesting (some t.kind) none rest
    | .float, none => .held [.token t] :: segmentsFrom nesting (some t.kind) none rest
    | _, some run => segmentsFrom nesting (some t.kind) (some (.token t :: run)) rest
    | _, none => .kept (.token t) :: segmentsFrom nesting (some t.kind) none rest

/-- The segments of a whole text. -/
def segments (ls : List Lexeme) : List Segment := segmentsFrom [] none none ls

/-- The lexemes that are kept and those that are held back make up the text. -/
theorem flatMap_lexemes_segmentsFrom (nesting : List Bracket) (previous : Option TokenKind)
    (pending : Option (List Lexeme)) (ls : List Lexeme) :
    (segmentsFrom nesting previous pending ls).flatMap Segment.lexemes =
      (pending.getD []).reverse ++ ls := by
  induction ls generalizing nesting previous pending with
  | nil =>
    simp only [segmentsFrom, List.flatMap_map, List.append_nil]
    exact List.flatMap_singleton' _
  | cons l rest ih =>
    cases l with
    | ignored text => cases pending <;> simp [segmentsFrom, Segment.lexemes, ih]
    | token t =>
      unfold segmentsFrom
      rcases roleOf nesting previous t.kind with ⟨role, nesting⟩
      cases role <;> cases pending <;> simp [Segment.lexemes, ih]

theorem flatMap_lexemes_segments (ls : List Lexeme) :
    (segments ls).flatMap Segment.lexemes = ls :=
  flatMap_lexemes_segmentsFrom [] none none ls

/-! ## Laying out literals -/

/-- The tokens of a value behind a token of kind `previous`: a comma and a blank between
the last token of an item and the first one of the next, and a blank behind a colon. -/
def layOutFrom (previous : Option TokenKind) : List Token → List Char
  | [] => []
  | t :: rest =>
    (if previous.any TokenKind.canEndItem && t.kind.canStartItem then [',', ' '] else []) ++
      t.text ++ (if t.kind = .punctuator ':' then [' '] else []) ++
      layOutFrom (some t.kind) rest

/-- The tokens of a value on one line. -/
def layOut (ts : List Token) : List Char := layOutFrom none ts

/-! ## Placeholders -/

/-- Whether a text occurs in another one. -/
def occursIn (text : List Char) : List Char → Bool
  | [] => text.isEmpty
  | c :: cs => text.isPrefixOf (c :: cs) || occursIn text cs

/-- Adds underscores, at most `n` of them, until the text does not occur in the document. -/
def extendUntilNew (document : List Char) : (n : Nat) → List Char → List Char
  | 0, text => text
  | n + 1, text =>
    if occursIn text document then extendUntilNew document n (text ++ ['_']) else text

/-- What the placeholders for a document start with. As many underscores as the document
has characters make a text too long to occur in it. -/
def placeholderStem (document : List Char) : List Char :=
  extendUntilNew document document.length "__preserved_literal_".toList

/-- The `i`-th placeholder. -/
def placeholder (stem : List Char) (i : Nat) : List Char := stem ++ Decimal.digits i ++ ['_', '_']

/-- The rest of a text behind a text that it starts with. -/
def stripFront : (front text : List Char) → Option (List Char)
  | [], text => some text
  | _ :: _, [] => none
  | f :: front, c :: text => if f = c then stripFront front text else none

/-- The rest of a text in front of a text that it ends with. -/
def stripBack (back text : List Char) : Option (List Char) :=
  (stripFront back.reverse text.reverse).map List.reverse

/-- The number of a placeholder, if the name is made like one. -/
def placeholderIndex? (stem name : List Char) : Option Nat :=
  (stripFront stem name).bind fun rest =>
    (stripBack ['_', '_'] rest).bind fun ds =>
      if ds ≠ [] ∧ ds.all Char.isDigit then some (Decimal.ofDigits ds) else none

/-- The literal that a name stands for as one of the placeholders. -/
def literalNamed? (stem : List Char) (literals : List (List Char)) (name : List Char) :
    Option (List Char) :=
  (placeholderIndex? stem name).bind fun i => literals[i]?

/-- The text of a lexeme, or the literal that it is a placeholder for. -/
def unmaskLexeme (stem : List Char) (literals : List (List Char)) : Lexeme → List Char
  | .ignored text => text
  | .token t =>
    if t.kind = .name then (literalNamed? stem literals t.text).getD t.text else t.text

/-! ## Masked texts -/

/-- A text in which literals are held back. -/
structure Masked where
  /-- What its placeholders start with. -/
  stem : List Char
  segments : List Segment

namespace Masked

/-- The text with the `i`-th placeholder, counted from `i`, in place of each run. -/
def textFrom (stem : List Char) (i : Nat) : List Segment → List Char
  | [] => []
  | .kept l :: rest => l.text ++ textFrom stem i rest
  | .held _ :: rest => placeholder stem i ++ textFrom stem (i + 1) rest

/-- The masked text. -/
def text (m : Masked) : List Char := textFrom m.stem 0 m.segments

/-- The literals held back, in order. -/
def literals (m : Masked) : List (List Char) :=
  m.segments.filterMap fun
    | .kept _ => none
    | .held run => some (layOut (run.filterMap Lexeme.token?))

/-- The literal that a name stands for. -/
def literalOf? (m : Masked) (name : List Char) : Option (List Char) :=
  literalNamed? m.stem m.literals name

/-- A text with all placeholders in it replaced by their literals. -/
def unmask (m : Masked) (formatted : List Char) : List Char :=
  let literals := m.literals
  if literals.isEmpty then formatted
  else (lexemes formatted).flatMap (unmaskLexeme m.stem literals)

end Masked

/-- Holds back the float literals and the outermost object values of a document. -/
def mask (document : List Char) : Masked :=
  ⟨placeholderStem document, segments (lexemes document)⟩

end QueryDoc.Source
