import QueryDoc.Json

/-!
# QueryDoc.Json.Reader

Reading JSON texts. The grammar is kept to the letter: no comments, no commas behind the
last item, no leading zeros, no control characters in strings, and nothing but blanks
behind the value.

The functions that call themselves take the number of calls that they may nest. Each call
reads a character at the latest when the next one does.
-/

namespace QueryDoc.Json

/-! ## Leaves -/

def isBlank (c : Char) : Bool := c == ' ' || c == '\t' || c == '\n' || c == '\r'

def skipBlanks (cs : List Char) : List Char := cs.dropWhile isBlank

/-- Splits off digits, at least one. -/
def splitDigits? (cs : List Char) : Option (List Char × List Char) :=
  if (spanDigits cs).1.isEmpty then none else some (spanDigits cs)

/-- Splits off the digits of a whole number: a zero alone, or digits with another in front. -/
def splitWhole? : List Char → Option (List Char × List Char)
  | '0' :: cs => some (['0'], cs)
  | cs => splitDigits? cs

/-- Splits off a point and digits, if there is a point. -/
def splitFraction? : List Char → Option (List Char × List Char)
  | '.' :: cs => (splitDigits? cs).map fun s => ('.' :: s.1, s.2)
  | cs => some ([], cs)

/-- Splits off a power of ten, if there is one. -/
def splitExponent? : List Char → Option (List Char × List Char)
  | [] => some ([], [])
  | c :: cs =>
    if c = 'e' ∨ c = 'E' then
      match cs with
      | '+' :: cs => (splitDigits? cs).map fun s => (c :: '+' :: s.1, s.2)
      | '-' :: cs => (splitDigits? cs).map fun s => (c :: '-' :: s.1, s.2)
      | cs => (splitDigits? cs).map fun s => (c :: s.1, s.2)
    else some ([], c :: cs)

/-- Splits off a number without sign. -/
def splitUnsigned? (cs : List Char) : Option (List Char × List Char) := do
  let (whole, cs) ← splitWhole? cs
  let (fraction, cs) ← splitFraction? cs
  let (exponent, cs) ← splitExponent? cs
  some (whole ++ fraction ++ exponent, cs)

/-- Splits off a number. -/
def splitNumber? : List Char → Option (List Char × List Char)
  | '-' :: cs => (splitUnsigned? cs).map fun s => ('-' :: s.1, s.2)
  | cs => splitUnsigned? cs

/-- Splits the text of a string, whose opening quote has been read, from what follows its
closing quote. Escapes only have to be well formed. -/
def splitString? : List Char → Option (List Char × List Char)
  | [] => none
  | '\\' :: 'u' :: a :: b :: c :: d :: cs =>
    if (hexUnit? a b c d).isSome then
      (splitString? cs).map fun s => ('\\' :: 'u' :: a :: b :: c :: d :: s.1, s.2)
    else none
  | '\\' :: c :: cs =>
    if (escapedChar? c).isSome then (splitString? cs).map fun s => ('\\' :: c :: s.1, s.2)
    else none
  | c :: cs =>
    if c = '"' then some ([], cs)
    else if c = '\\' ∨ c < ' ' then none
    else (splitString? cs).map fun s => (c :: s.1, s.2)

/-- Takes a character off, if it is the first one. -/
def expect? (c : Char) : List Char → Option (List Char)
  | [] => none
  | d :: cs => if c = d then some cs else none

/-! ## Values -/

mutual

/-- Reads a value that begins with the first character. -/
def readValue? : (room : Nat) → List Char → Option (Json × List Char)
  | 0, _ => none
  | n + 1, cs =>
    match cs with
    | 'n' :: 'u' :: 'l' :: 'l' :: cs => some (null, cs)
    | 't' :: 'r' :: 'u' :: 'e' :: cs => some (bool true, cs)
    | 'f' :: 'a' :: 'l' :: 's' :: 'e' :: cs => some (bool false, cs)
    | '"' :: cs => (splitString? cs).map fun s => (string s.1, s.2)
    | '[' :: cs =>
      match expect? ']' (skipBlanks cs) with
      | some cs => some (array [], cs)
      | none => (readItems? n (skipBlanks cs)).map fun s => (array s.1, s.2)
    | '{' :: cs =>
      match expect? '}' (skipBlanks cs) with
      | some cs => some (object [], cs)
      | none => (readMembers? n (skipBlanks cs)).map fun s => (object s.1, s.2)
    | cs => (splitNumber? cs).map fun s => (number s.1, s.2)

/-- Reads items up to a closing bracket, at least one. -/
def readItems? : (room : Nat) → List Char → Option (List Json × List Char)
  | 0, _ => none
  | n + 1, cs => do
    let (j, cs) ← readValue? n cs
    match skipBlanks cs with
    | ']' :: cs => some ([j], cs)
    | ',' :: cs =>
      let (js, cs) ← readItems? n (skipBlanks cs)
      some (j :: js, cs)
    | _ => none

/-- Reads members up to a closing brace, at least one. -/
def readMembers? : (room : Nat) → List Char → Option (List (List Char × Json) × List Char)
  | 0, _ => none
  | n + 1, cs => do
    let cs ← expect? '"' cs
    let (key, cs) ← splitString? cs
    let cs ← expect? ':' (skipBlanks cs)
    let (j, cs) ← readValue? n (skipBlanks cs)
    match skipBlanks cs with
    | '}' :: cs => some ([(key, j)], cs)
    | ',' :: cs =>
      let (members, cs) ← readMembers? n (skipBlanks cs)
      some ((key, j) :: members, cs)
    | _ => none

end

/-- Reads a text that is one value, with blanks around it. -/
def read? (text : List Char) : Option Json := do
  let (j, rest) ← readValue? (2 * text.length + 1) (skipBlanks text)
  if (skipBlanks rest).isEmpty then some j else none

end QueryDoc.Json
