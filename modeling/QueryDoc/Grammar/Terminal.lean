import QueryDoc.Binary64
import QueryDoc.Grammar.BlockString
import QueryDoc.Grammar.QuotedString
import QueryDoc.Grammar.Token

/-!
# QueryDoc.Grammar.Terminal

Tokens with their content read: the letters that the grammar of documents is written in.

A token whose content cannot be read, such as an integer of more than 64 bits or a string
with an unknown escape, is no terminal, and a text goes no further than that.
-/

namespace QueryDoc.Grammar

/-- A token with its content. Both forms of string give the characters they stand for. -/
inductive Terminal where
  | mark (c : Char)
  | spread
  | name (name : String)
  | int (n : Int64)
  | float (x : Binary64)
  | string (s : String)
deriving DecidableEq

/-- The number that digits with or without a minus sign stand for, if it has 64 bits. -/
def readInt? (text : List Char) : Option Int64 :=
  let n : Int := match text with
    | '-' :: digits => -(Decimal.ofDigits digits : Int)
    | digits => Decimal.ofDigits digits
  if Int64.minValue.toInt ≤ n ∧ n ≤ Int64.maxValue.toInt then some (Int64.ofInt n) else none

/-- A text without this many characters at either end. -/
def inner (quotes : Nat) (text : List Char) : List Char :=
  (text.drop quotes).take (text.length - 2 * quotes)

/-- The terminal that a token is read as. -/
def Token.terminal? (t : Token) : Option Terminal :=
  match t.kind with
  | .punctuator mark => some (.mark mark)
  | .spread => some .spread
  | .name => some (.name (String.ofList t.text))
  | .int => (readInt? t.text).map .int
  | .float => (Decimal.read? t.text).map fun d => .float (Binary64.ofDecimal d)
  | .string =>
    (QuotedString.decode? (inner 1 t.text)).map fun s => .string (String.ofList s)
  | .blockString => some (.string (String.ofList (BlockString.decode (inner 3 t.text))))

/-- The terminals of a text. -/
def terminals (cs : List Char) : Scan Terminal := (scan cs).mapWhile Token.terminal?

end QueryDoc.Grammar
