import QueryDoc.OrderedMap
import QueryDoc.Binary64.Shortest

/-!
# QueryDoc.Value

Values that a caller passes as arguments, and the literals they are written as.

The kind of a value is settled when it is made. Plain text becomes a string, and text that
starts with a dollar sign a reference to a variable (`Value.ofText`). Lists and objects are
written in the order in which they are stored, and strings between quotes exactly as they
are: what stands in them is the caller's business.
-/

namespace QueryDoc

/-! ## Variables -/

/-- A reference to a variable of the surrounding operation, by its name without `$`. -/
structure VariableRef where
  name : String
deriving DecidableEq, Repr

namespace VariableRef

/-- The variable of this name, given with or without a leading dollar sign. Only one
dollar sign is taken off. -/
def ofText (text : String) : VariableRef :=
  match text.toList with
  | '$' :: name => ⟨String.ofList name⟩
  | _ => ⟨text⟩

/-- The name behind a dollar sign. -/
def text (v : VariableRef) : String := "$" ++ v.name

end VariableRef

/-! ## Values -/

/-- A value passed as an argument. -/
inductive Value where
  | bool (b : Bool)
  /-- A bare word, such as a value of an enumeration. -/
  | enum (name : String)
  | float (x : Binary64)
  | int (n : Int64)
  | list (items : List Value)
  | null
  | object (fields : OrderedMap Value)
  | string (s : String)
  | reference (v : VariableRef)

namespace Value

/-- Text as a value: a reference if it starts with a dollar sign, else a string. -/
def ofText (text : String) : Value :=
  match text.toList with
  | '$' :: _ => reference (VariableRef.ofText text)
  | _ => string text

/-- A variable as a value. -/
def variableNamed (name : String) : Value := reference (VariableRef.ofText name)

/-- An object with these fields, the last one of each key winning. -/
def ofFields (fields : List (String × Value)) : Value := object (OrderedMap.ofList fields)

/-! ## Literals -/

/-- A finite number has a point in its literal; there is no literal for the others, which
are written as null. -/
def floatText (x : Binary64) : String :=
  if x.isFinite then String.ofList (Binary64.pointed x.shortText) else "null"

def intText (n : Int64) : String := String.ofList (Decimal.intText n.toInt)

mutual

/-- The literal that a value is written as. -/
def text : Value → String
  | bool b => if b then "true" else "false"
  | enum name => name
  | float x => floatText x
  | int n => intText n
  | list items => "[" ++ ", ".intercalate (itemTexts items) ++ "]"
  | null => "null"
  | object ⟨fields⟩ => "\x7b" ++ ", ".intercalate (fieldTexts fields) ++ "\x7d"
  | string s => "\"" ++ s ++ "\""
  | reference v => v.text

/-- The literals of a list's items. -/
def itemTexts : List Value → List String
  | [] => []
  | v :: rest => v.text :: itemTexts rest

/-- The fields of an object, each as `key: literal`. -/
def fieldTexts : List (String × Value) → List String
  | [] => []
  | (key, v) :: rest => (key ++ ": " ++ v.text) :: fieldTexts rest

end

/-! ## Equality -/

mutual

/-- Equality of values: floats as numbers, lists in order, objects by key in any order. -/
def equals : Value → Value → Bool
  | bool a, bool b => a == b
  | enum a, enum b => a == b
  | float a, float b => a.equals b
  | int a, int b => a == b
  | list as, list bs => itemsEqual as bs
  | null, null => true
  | object ⟨as⟩, object bs => as.length == bs.size && fieldsAgree as bs
  | string a, string b => a == b
  | reference a, reference b => a == b
  | _, _ => false

/-- Whether two lists have the same length and equal items. -/
def itemsEqual : List Value → List Value → Bool
  | [], [] => true
  | a :: as, b :: bs => a.equals b && itemsEqual as bs
  | _, _ => false

/-- Whether every one of these fields has an equal value in the other object. -/
def fieldsAgree : List (String × Value) → OrderedMap Value → Bool
  | [], _ => true
  | (key, a) :: as, bs =>
    (match bs.get? key with
      | some b => a.equals b
      | none => false) && fieldsAgree as bs

end

end Value

end QueryDoc
