import QueryDoc.Whitespace

/-!
# QueryDoc.Text

Texts as lists of characters: their size in bytes and their lines.
-/

namespace QueryDoc

/-- The number of bytes that a text takes in UTF-8. -/
def byteSize : List Char → Nat
  | [] => 0
  | c :: cs => c.utf8Size + byteSize cs

theorem byteSize_append (cs ds : List Char) : byteSize (cs ++ ds) = byteSize cs + byteSize ds := by
  induction cs with
  | nil => exact (Nat.zero_add _).symm
  | cons c cs ih => rw [List.cons_append, byteSize, byteSize, ih, Nat.add_assoc]

/-- The lines of a text. A line ends at a line feed, with the carriage return in front of it
if there is one; an empty line at the end of the text is none. -/
def lines : List Char → List (List Char)
  | [] => []
  | '\n' :: cs => [] :: lines cs
  | '\r' :: '\n' :: cs => [] :: lines cs
  | c :: cs =>
    match lines cs with
    | [] => [[c]]
    | line :: rest => (c :: line) :: rest

/-- Whether a line holds nothing but whitespace. -/
def isBlankLine (line : List Char) : Bool := line.all isWhitespace

end QueryDoc
