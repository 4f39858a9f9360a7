import QueryDoc.Text

/-!
# QueryDoc.Grammar.BlockString

The text between the triple quotes of a block string, and the characters that it stands for.

Reading takes the indentation that the lines have in common off all of them but the first
one, and drops the blank lines around the text. Writing puts every line on a line of its
own and indents it.
-/

namespace QueryDoc.Grammar.BlockString

/-! ## Indentation -/

/-- The bytes of whitespace in front of a line. -/
def indentation (line : List Char) : Nat := byteSize (line.takeWhile isWhitespace)

/-- The smallest indentation of the lines that are not blank. -/
def commonIndentation (ls : List (List Char)) : Option Nat :=
  ((ls.filter fun l => !isBlankLine l).map indentation).min?

/-- A line without its first `n` bytes. -/
def dropBytes : (n : Nat) → List Char → List Char
  | 0, line => line
  | _, [] => []
  | n, c :: line => dropBytes (n - c.utf8Size) line

/-- A line without this indentation; one shorter than that stays. -/
def unindent (n : Nat) (line : List Char) : List Char :=
  if n ≤ byteSize line then dropBytes n line else line

/-- Lines without the blank ones in front of them and behind them. -/
def trimBlank (ls : List (List Char)) : List (List Char) :=
  ((ls.dropWhile isBlankLine).reverse.dropWhile isBlankLine).reverse

/-! ## Triple quotes -/

/-- Triple quotes without the backslash in front of them. -/
def unescape : List Char → List Char
  | '\\' :: '"' :: '"' :: '"' :: cs => '"' :: '"' :: '"' :: unescape cs
  | c :: cs => c :: unescape cs
  | [] => []

/-- Triple quotes with a backslash in front of them. -/
def escape : List Char → List Char
  | '"' :: '"' :: '"' :: cs => '\\' :: '"' :: '"' :: '"' :: escape cs
  | c :: cs => c :: escape cs
  | [] => []

/-! ## Reading and writing -/

/-- The characters that the text between triple quotes stands for. -/
def decode (text : List Char) : List Char :=
  let unindented := match lines text with
    | [] => []
    | first :: rest =>
      match commonIndentation rest with
      | some n => first :: rest.map (unindent n)
      | none => first :: rest
  List.intercalate ['\n'] ((trimBlank unindented).map unescape)

/-- Characters as they are written between triple quotes: on lines of their own behind
`margin`, blank lines empty, and the closing quotes behind `outerMargin`. -/
def encode (margin outerMargin : List Char) (cs : List Char) : List Char :=
  '\n' :: ((lines cs).flatMap fun line =>
    (if isBlankLine line then [] else margin ++ escape line) ++ ['\n']) ++ outerMargin

end QueryDoc.Grammar.BlockString
