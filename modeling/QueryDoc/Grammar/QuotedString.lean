import QueryDoc.Character

/-!
# QueryDoc.Grammar.QuotedString

The text between the quotes of a string, and the characters that it stands for.

`decode` reads the escapes that a document may use. `encode` writes the fewest escapes that
a quoted string needs, and gives characters outside the basic plane (and control characters
other than tab, line feed and carriage return) by their code points in decimal.
-/

namespace QueryDoc.Grammar.QuotedString

/-! ## Reading -/

/-- The number that hexadecimal digits stand for behind the number in front of them. -/
def hexNumber? (number : Nat) : List Char → Option Nat
  | [] => some number
  | c :: cs => (hexValue? c).bind fun d => hexNumber? (16 * number + d) cs

/-- The character whose code point four characters give in hexadecimal. The first of them
may be a plus sign; there is no character for half of a surrogate pair. -/
def unicodeChar? (code : List Char) : Option Char :=
  let number := match code with
    | '+' :: digits => hexNumber? 0 digits
    | digits => hexNumber? 0 digits
  number.bind fun n => if h : n.isValidChar then some (Char.ofNatAux n h) else none

/-- The character that a letter behind a backslash stands for. -/
def escapedChar? (c : Char) : Option Char :=
  if c = '"' ∨ c = '\\' ∨ c = '/' then some c
  else if c = 'b' then some '\x10'
  else if c = 'f' then some '\x0c'
  else if c = 'n' then some '\n'
  else if c = 'r' then some '\r'
  else if c = 't' then some '\t'
  else none

/-- The characters that the text between two quotes stands for, if its escapes are right. -/
def decode? : List Char → Option (List Char)
  | [] => some []
  | '\\' :: 'u' :: a :: b :: c :: d :: rest =>
    (unicodeChar? [a, b, c, d]).bind fun x => (decode? rest).map (x :: ·)
  | '\\' :: c :: rest => (escapedChar? c).bind fun x => (decode? rest).map (x :: ·)
  | c :: rest => if c = '\\' then none else (decode? rest).map (c :: ·)

/-! ## Writing -/

/-- Characters that stand for themselves in a string: tab, the line ends, and what is
neither a control character nor outside the basic plane. -/
def isPlain (c : Char) : Bool :=
  c == '\n' || c == '\r' || c == '\t' || (decide (' ' ≤ c) && decide (c.toNat ≤ 0xFFFF))

/-- A number in decimal with at least four digits. -/
def fourDigits (n : Nat) : List Char :=
  let ds := Nat.toDigits 10 n
  List.replicate (4 - ds.length) '0' ++ ds

/-- A character as it is written between quotes. -/
def encodeChar (c : Char) : List Char :=
  if c = '\r' then ['\\', 'r']
  else if c = '\n' then ['\\', 'n']
  else if c = '\t' then ['\\', 't']
  else if c = '"' then ['\\', '"']
  else if c = '\\' then ['\\', '\\']
  else if isPlain c then [c]
  else '\\' :: 'u' :: fourDigits c.toNat

/-- Characters as they are written between quotes. -/
def encode (cs : List Char) : List Char := cs.flatMap encodeChar

end QueryDoc.Grammar.QuotedString
