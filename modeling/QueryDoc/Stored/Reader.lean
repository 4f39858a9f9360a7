import QueryDoc.Canonical
import QueryDoc.Json

/-!
# QueryDoc.Stored.Reader

Reading stored values, nodes, fragments, operations and layouts from JSON trees.

A structure is an object with its fields by name, or an array of all of its fields in
order; unknown fields are passed over, and a field given twice is an error. One of several
forms is an object with the form's name as its only key; a form without content may also
be its name alone, or have null as its content. Maps are objects, and a repeated key is a
repeated insertion.

Nothing is adjusted on the way: names, keys and flags are taken as they are. The functions
take the number of arrays and objects that what they read may nest, `maxLevels` at first.
-/

namespace QueryDoc.Stored

/-- How many arrays and objects may stand in each other. -/
def maxLevels : Nat := 127

/-! ## Reading leaves -/

def toBool? : Json → Option Bool
  | .bool b => some b
  | _ => none

def toString? : Json → Option String
  | .string written => Json.decodeString? written
  | _ => none

/-- A string, or null for none. -/
def toOptionalString? : Json → Option (Option String)
  | .null => some none
  | j => (toString? j).map some

/-- A whole number written without point and power of ten. Zero has no minus sign. -/
def toInt? : Json → Option Int
  | .number ('-' :: digits) =>
    if digits.all Char.isDigit ∧ digits ≠ ['0'] then some (-(Decimal.ofDigits digits : Int))
    else none
  | .number digits =>
    if digits.all Char.isDigit then some (Decimal.ofDigits digits : Int) else none
  | _ => none

/-- A whole number of 64 bits. -/
def toInt64? (j : Json) : Option Int64 :=
  (toInt? j).bind fun n =>
    if Int64.minValue.toInt ≤ n ∧ n ≤ Int64.maxValue.toInt then some (Int64.ofInt n) else none

/-- A whole number of 32 bits that is not negative. -/
def toUInt32? (j : Json) : Option UInt32 :=
  (toInt? j).bind fun n => if 0 ≤ n ∧ n < UInt32.size then some (UInt32.ofNat n.toNat) else none

/-- A number as the nearest float, if that is finite. -/
def toFloat? : Json → Option Binary64
  | .number text =>
    (Decimal.read? text).bind fun d =>
      let x := Binary64.ofDecimal d
      if x.isFinite then some x else none
  | _ => none

/-- A variable is its name. -/
def toReference? (j : Json) : Option VariableRef := (toString? j).map VariableRef.mk

/-! ## Reading structures, forms and maps -/

/-- Puts a member into the place of its field, which has to be free. -/
def putMember (key : String) (content : Json) :
    List (String × Option Json) → Option (List (String × Option Json))
  | [] => some []
  | (name, place) :: rest =>
    if name = key then
      match place with
      | none => some ((name, some content) :: rest)
      | some _ => none
    else (putMember key content rest).map ((name, place) :: ·)

/-- Puts members into the places of their fields. -/
def putMembers : List (List Char × Json) → List (String × Option Json) →
    Option (List (String × Option Json))
  | [], places => some places
  | (key, content) :: rest, places =>
    (Json.decodeString? key).bind fun key =>
      (putMember key content places).bind (putMembers rest)

/-- The contents of a structure's fields, in the order of their names. -/
def fields? (names : List String) : Json → Option (List (Option Json))
  | .array items => if items.length = names.length then some (items.map some) else none
  | .object members =>
    (putMembers members (names.map fun name => (name, none))).map fun places =>
      places.map Prod.snd
  | _ => none

/-- The name and the content of one of several forms; a name alone has no content. -/
def form? : Json → Option (String × Option Json)
  | .string written => (Json.decodeString? written).map fun name => (name, none)
  | .object [(name, content)] =>
    (Json.decodeString? name).map fun name => (name, some content)
  | _ => none

/-- Whether a form without content has none. -/
def isUnit : Option Json → Bool
  | none => true
  | some .null => true
  | some _ => false

/-- The entries of an object, each read by `f`. -/
def entries? (f : Json → Option α) : List (List Char × Json) → Option (List (String × α))
  | [] => some []
  | (key, content) :: rest => do
    let key ← Json.decodeString? key
    let value ← f content
    let entries ← entries? f rest
    some ((key, value) :: entries)

/-- A map from an object, each content read by `f`. -/
def map? (f : Json → Option α) : (levels : Nat) → Json → Option (OrderedMap α)
  | _ + 1, .object members => (entries? f members).map OrderedMap.ofList
  | _, _ => none

/-! ## Reading values -/

mutual

/-- A value in one of its forms, read with room for this many levels. -/
def toValue? : (levels : Nat) → Json → Option Value
  | 0, j => do
    let (name, content) ← form? j
    if name = "Null" ∧ content.isNone then some .null else none
  | n + 1, j => do
    let (name, content) ← form? j
    if name = "Null" then if isUnit content then some .null else none
    else
      let content ← content
      match name with
      | "Bool" => (toBool? content).map .bool
      | "Enum" => (toString? content).map .enum
      | "Float" => (toFloat? content).map .float
      | "Int" => (toInt64? content).map .int
      | "List" => (toItems? n content).map .list
      | "Object" => (toFields? n content).map .object
      | "String" => (toString? content).map .string
      | "Variable" => (toReference? content).map .reference
      | _ => none

/-- Items, all of them or none. -/
def toItems? : (levels : Nat) → Json → Option (List Value)
  | n + 1, .array items => items.mapM fun j => toValue? n j
  | _, _ => none

/-- Fields, all of them or none. -/
def toFields? : (levels : Nat) → Json → Option (OrderedMap Value)
  | n + 1, .object members =>
    (entries? (fun j => toValue? n j) members).map OrderedMap.ofList
  | _, _ => none

end

/-! ## Reading nodes, fragments and operations -/

/-- A form without content. -/
def toKind? : (levels : Nat) → Json → Option OperationKind
  | levels, j => do
    let (name, content) ← form? j
    if (levels = 0 ∧ content.isSome) ∨ isUnit content = false then none
    else
      match name with
      | "Mutation" => some .mutation
      | "Query" => some .query
      | _ => none

/-- The arguments in the structure around their map. -/
def toArguments? : (levels : Nat) → Json → Option (OrderedMap Value)
  | 0, _ => none
  | n + 1, j => do
    let [some entries] ← fields? ["entries"] j | none
    toFields? n entries

/-- The conditions of a node. -/
def toConditions? : (levels : Nat) → Json → Option Conditions
  | 0, _ => none
  | n + 1, j => do
    let [some includeIf, some skipIf] ← fields? ["include_if", "skip_if"] j | none
    let includeIf ← map? toReference? n includeIf
    let skipIf ← map? toReference? n skipIf
    some ⟨includeIf, skipIf⟩

mutual

/-- A node with all of its members. -/
def toNode? : (levels : Nat) → Json → Option Node
  | 0, _ => none
  | n + 1, j => do
    let [some arguments, some conditions, some selected, some fragments, some isOperation,
      some kind, operationName, some typeName] ←
      fields? ["arguments", "directives", "fields", "fragments", "is_operation", "kind",
        "operation_name", "type_name"] j | none
    let arguments ← toArguments? n arguments
    let conditions ← toConditions? n conditions
    let selected ← toSelectionSet? n selected
    let fragments ← toFragments? n fragments
    let isOperation ← toBool? isOperation
    let kind ← toKind? n kind
    let operationName ← toOptionalString? (operationName.getD .null)
    let typeName ← toString? typeName
    some ⟨typeName, arguments, conditions, selected, fragments, isOperation, kind,
      operationName⟩

/-- The selection set in the structure around its map. -/
def toSelectionSet? : (levels : Nat) → Json → Option SelectionSet
  | 0, _ => none
  | n + 1, j => do
    let [some entries] ← fields? ["entries"] j | none
    toEntries? n entries

/-- Entries under their keys, all of them or none. -/
def toEntries? : (levels : Nat) → Json → Option SelectionSet
  | n + 1, .object members =>
    (entries? (fun j => toEntry? n j) members).map OrderedMap.ofList
  | _, _ => none

/-- What stands under a key: a field or a node. -/
def toEntry? : (levels : Nat) → Json → Option Entry
  | 0, _ => none
  | n + 1, j => do
    let (name, some content) ← form? j | none
    match name with
    | "Field" => (toString? content).map .field
    | "Selection" => toNodeEntry? n content
    | _ => none

def toNodeEntry? : (levels : Nat) → Json → Option Entry
  | 0, _ => none
  | n + 1, j => do
    let [some explicitKey, some node] ← fields? ["explicit_alias", "node"] j | none
    let explicitKey ← toBool? explicitKey
    let node ← toNode? n node
    some (.node explicitKey node)

/-- A fragment with all of its members. -/
def toFragment? : (levels : Nat) → Json → Option Fragment
  | 0, _ => none
  | n + 1, j => do
    let [some selected, some name, some onType] ← fields? ["fields", "name", "on_type"] j
      | none
    let selected ← toSelectionSet? n selected
    let name ← toString? name
    let onType ← toString? onType
    some ⟨name, onType, selected⟩

/-- Fragments, all of them or none. -/
def toFragments? : (levels : Nat) → Json → Option (List Fragment)
  | n + 1, .array items => items.mapM fun j => toFragment? n j
  | _, _ => none

end

/-- An operation with all of its members. -/
def toOperation? : (levels : Nat) → Json → Option Operation
  | 0, _ => none
  | n + 1, j => do
    let [some selected, some fragments, some kind, some name, some types] ←
      fields? ["fields", "fragments", "kind", "name", "variables"] j | none
    let selected ← toSelectionSet? n selected
    let fragments ← toFragments? n fragments
    let kind ← toKind? n kind
    let name ← toString? name
    let types ← map? toString? n types
    some ⟨selected, fragments, kind, name, types⟩

def toLayout? (j : Json) : Option Layout := do
  let [some indent] ← fields? ["indent"] j | none
  let indent ← toUInt32? indent
  some ⟨indent⟩

end QueryDoc.Stored
