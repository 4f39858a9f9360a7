import QueryDoc.Decimal

/-!
# QueryDoc.Json

JSON texts as trees. Strings and numbers keep the text in which they are written, so that
a member nobody asks for need not have a meaning: half of a surrogate pair, or a number of
any size, only matters where it is read.

`Json.text` writes a tree without blanks, and `Json.encodeString` and `Json.decodeString?`
go between characters and the text between two quotes.
-/

namespace QueryDoc

/-- A JSON value. -/
inductive Json where
  | null
  | bool (b : Bool)
  /-- A number by its text. -/
  | number (text : List Char)
  /-- A string by the text between its quotes. -/
  | string (written : List Char)
  | array (items : List Json)
  /-- An object by its members in order, each key by the text between its quotes. -/
  | object (members : List (List Char × Json))

namespace Json

/-! ## Strings -/

/-- The number that four hexadecimal digits stand for. -/
def hexUnit? (a b c d : Char) : Option Nat := do
  let a ← hexValue? a
  let b ← hexValue? b
  let c ← hexValue? c
  let d ← hexValue? d
  some (((16 * a + b) * 16 + c) * 16 + d)

/-- The character that a letter behind a backslash stands for. -/
def escapedChar? (c : Char) : Option Char :=
  if c = '"' ∨ c = '\\' ∨ c = '/' then some c
  else if c = 'b' then some '\x08'
  else if c = 'f' then some '\x0c'
  else if c = 'n' then some '\n'
  else if c = 'r' then some '\r'
  else if c = 't' then some '\t'
  else none

/-- The character of a code point, which is no half of a surrogate pair. -/
def charOfCode? (n : Nat) : Option Char :=
  if h : n.isValidChar then some (Char.ofNatAux n h) else none

def isHighSurrogate (n : Nat) : Bool := decide (0xD800 ≤ n ∧ n ≤ 0xDBFF)

def isLowSurrogate (n : Nat) : Bool := decide (0xDC00 ≤ n ∧ n ≤ 0xDFFF)

/-- The characters that the text between two quotes stands for. Both halves of a surrogate
pair have to be there. -/
def decodeChars? : List Char → Option (List Char)
  | [] => some []
  | '\\' :: 'u' :: a :: b :: c :: d :: rest =>
    (hexUnit? a b c d).bind fun high =>
      if isHighSurrogate high then
        match rest with
        | '\\' :: 'u' :: a :: b :: c :: d :: rest =>
          (hexUnit? a b c d).bind fun low =>
            if isLowSurrogate low then
              (charOfCode? (0x10000 + (high - 0xD800) * 0x400 + (low - 0xDC00))).bind fun x =>
                (decodeChars? rest).map (x :: ·)
            else none
        | _ => none
      else (charOfCode? high).bind fun x => (decodeChars? rest).map (x :: ·)
  | '\\' :: c :: rest => (escapedChar? c).bind fun x => (decodeChars? rest).map (x :: ·)
  | c :: rest => if c = '\\' then none else (decodeChars? rest).map (c :: ·)

/-- The string that the text between two quotes stands for. -/
def decodeString? (written : List Char) : Option String :=
  (decodeChars? written).map String.ofList

/-- A hexadecimal digit. -/
def hexDigit (n : Nat) : Char := (Nat.toDigits 16 (n % 16)).headD '0'

/-- A character as it is written between quotes. -/
def encodeChar (c : Char) : List Char :=
  if c = '"' then ['\\', '"']
  else if c = '\\' then ['\\', '\\']
  else if c = '\x08' then ['\\', 'b']
  else if c = '\x0c' then ['\\', 'f']
  else if c = '\n' then ['\\', 'n']
  else if c = '\r' then ['\\', 'r']
  else if c = '\t' then ['\\', 't']
  else if c < ' ' then ['\\', 'u', '0', '0', hexDigit (c.toNat / 16), hexDigit c.toNat]
  else [c]

/-- A string as it is written between quotes. -/
def encodeString (s : String) : List Char := s.toList.flatMap encodeChar

/-! ## Writing -/

/-- A string by its characters. -/
def ofString (s : String) : Json := string (encodeString s)

/-- An object with these members. -/
def ofMembers (members : List (String × Json)) : Json :=
  object (members.map fun m => (encodeString m.1, m.2))

mutual

/-- The text of a tree. -/
def text : Json → List Char
  | null => ['n', 'u', 'l', 'l']
  | bool b => if b then ['t', 'r', 'u', 'e'] else ['f', 'a', 'l', 's', 'e']
  | number text => text
  | string written => '"' :: written ++ ['"']
  | array items => '[' :: itemsText items ++ [']']
  | object members => '{' :: membersText members ++ ['}']

/-- Items with commas between them. -/
def itemsText : List Json → List Char
  | [] => []
  | [j] => j.text
  | j :: rest => j.text ++ ',' :: itemsText rest

/-- Members with commas between them. -/
def membersText : List (List Char × Json) → List Char
  | [] => []
  | [(key, j)] => '"' :: key ++ '"' :: ':' :: j.text
  | (key, j) :: rest => '"' :: key ++ '"' :: ':' :: j.text ++ ',' :: membersText rest

end

end Json

end QueryDoc
