import QueryDoc.Canonical
import QueryDoc.Json

/-!
# QueryDoc.Stored.Writer

The stored form of values, nodes, fragments, operations and layouts: a JSON tree.

A structure is an object with its fields by name. One of several forms is an object with
the form's name as its only key, or the name alone if the form has no content. Maps are
objects in the order in which the map is stored. Names, keys and flags are written as they
are. How numbers are written is left to a `NumberFormat`.
-/

namespace QueryDoc.Stored

/-! ## Leaves, forms and maps -/

/-- The texts that numbers are stored as. -/
structure NumberFormat where
  /-- The text of a finite float. -/
  float : Binary64 → List Char
  /-- The text of a whole number. -/
  int : Int64 → List Char

/-- One of several forms with its content. -/
def tagged (name : String) (content : Json) : Json := .ofMembers [(name, content)]

/-- A map as an object. -/
def ofMap (f : α → Json) (m : OrderedMap α) : Json :=
  .ofMembers (m.entries.map fun e => (e.1, f e.2))

/-- The entries of a map, which stands in a structure of its own. -/
def ofEntryMap (members : List (String × Json)) : Json :=
  .ofMembers [("entries", .ofMembers members)]

/-- A kind by its name. -/
def ofKind : OperationKind → Json
  | .mutation => .ofString "Mutation"
  | .query => .ofString "Query"

/-- A string, or null for none. -/
def ofOptionalString : Option String → Json
  | some s => .ofString s
  | none => .null

/-- Two maps, each from a response key to the name of a variable. -/
def ofConditions (c : Conditions) : Json :=
  .ofMembers [("include_if", ofMap (fun v => .ofString v.name) c.includeIf),
    ("skip_if", ofMap (fun v => .ofString v.name) c.skipIf)]

/-- A layout has a single field. -/
def ofLayout (layout : Layout) : Json :=
  .ofMembers [("indent", .number (Decimal.digits layout.indent.toNat))]

section Numbers

variable (numbers : NumberFormat)

/-! ## Values -/

/-- A float as a number. There are no numbers for infinities and for what is no number. -/
def ofFloat (x : Binary64) : Json :=
  if x.isFinite then .number (numbers.float x) else .null

mutual

/-- A value is stored with the name of its form. -/
def ofValue : Value → Json
  | .bool b => tagged "Bool" (.bool b)
  | .enum name => tagged "Enum" (.ofString name)
  | .float x => tagged "Float" (ofFloat numbers x)
  | .int n => tagged "Int" (.number (numbers.int n))
  | .list items => tagged "List" (.array (ofItems items))
  | .null => .ofString "Null"
  | .object ⟨fields⟩ => tagged "Object" (.ofMembers (ofFields fields))
  | .string s => tagged "String" (.ofString s)
  | .reference v => tagged "Variable" (.ofString v.name)

/-- The values in a list, in order. -/
def ofItems : List Value → List Json
  | [] => []
  | v :: rest => ofValue v :: ofItems rest

/-- The values in an object, or the arguments of a node, each under its key. -/
def ofFields : List (String × Value) → List (String × Json)
  | [] => []
  | (key, v) :: rest => (key, ofValue v) :: ofFields rest

end

/-! ## Nodes, fragments and operations -/

mutual

/-- A node is stored with all of its fields. -/
def ofNode : Node → Json
  | ⟨typeName, ⟨arguments⟩, conditions, ⟨entries⟩, fragments, isOperation, kind, operationName⟩ =>
    .ofMembers [
      ("arguments", ofEntryMap (ofFields numbers arguments)),
      ("directives", ofConditions conditions),
      ("fields", ofEntryMap (ofEntries entries)),
      ("fragments", .array (ofFragments fragments)),
      ("is_operation", .bool isOperation),
      ("kind", ofKind kind),
      ("operation_name", ofOptionalString operationName),
      ("type_name", .ofString typeName)]

/-- A field by its name, a node together with whether its key was chosen. -/
def ofEntry : Entry → Json
  | .field name => tagged "Field" (.ofString name)
  | .node explicitKey n =>
    tagged "Selection" (.ofMembers [("explicit_alias", .bool explicitKey), ("node", ofNode n)])

/-- The entries of a selection set, each under its response key. -/
def ofEntries : List (String × Entry) → List (String × Json)
  | [] => []
  | (key, e) :: rest => (key, ofEntry e) :: ofEntries rest

/-- A fragment is stored with its name, its type and its selection set. -/
def ofFragment : Fragment → Json
  | ⟨name, onType, ⟨entries⟩⟩ =>
    .ofMembers [("fields", ofEntryMap (ofEntries entries)), ("name", .ofString name),
      ("on_type", .ofString onType)]

/-- Fragments in the order in which they were attached. -/
def ofFragments : List Fragment → List Json
  | [] => []
  | f :: rest => ofFragment f :: ofFragments rest

end

/-- An operation is stored with its variables in the order of their declaration. -/
def ofOperation (o : Operation) : Json :=
  .ofMembers [("fields", ofEntryMap (ofEntries numbers o.fields.entries)),
    ("fragments", .array (ofFragments numbers o.fragments)), ("kind", ofKind o.kind),
    ("name", .ofString o.name), ("variables", ofMap .ofString o.variableTypes)]

end Numbers

end QueryDoc.Stored
