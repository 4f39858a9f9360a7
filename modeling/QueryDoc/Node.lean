import QueryDoc.Value

/-!
# QueryDoc.Node

The tree that a document is built from: nodes, each a field with arguments, conditions and
a selection set of its own, and fragments, which are named selection sets.

A selection set maps response keys to entries. `SelectionSet.select` adds what a caller
selects; a node selected that way stops being an operation of its own, and a node without
a type name takes the key that it is selected under as its type name.
-/

namespace QueryDoc

/-! ## Kinds of operation -/

inductive OperationKind where
  | mutation
  | query
deriving DecidableEq, Repr

/-- Why an operation or a node cannot be built. -/
inductive BuildError where
  /-- The keyword names no kind of operation that can be built. -/
  | invalidOperationType (given : String)
deriving DecidableEq, Repr

def BuildError.message : BuildError → String
  | .invalidOperationType given =>
    "`" ++ given ++ "` is not a valid operation type. Expected `query` or `mutation`."

namespace OperationKind

/-- The word that introduces an operation of this kind. -/
def keyword : OperationKind → String
  | mutation => "mutation"
  | query => "query"

/-- The kind that a keyword names. -/
def ofKeyword (keyword : String) : Except BuildError OperationKind :=
  if keyword = "mutation" then .ok mutation
  else if keyword = "query" then .ok query
  else .error (.invalidOperationType keyword)

end OperationKind

/-! ## Conditions -/

/-- The conditions of a node's fields, by response key: variables under which a field is
skipped, and variables under which it is included. -/
structure Conditions where
  includeIf : OrderedMap VariableRef
  skipIf : OrderedMap VariableRef

namespace Conditions

/-- No conditions at all. -/
def empty : Conditions := ⟨.empty, .empty⟩

def isEmpty (c : Conditions) : Bool := c.includeIf.isEmpty && c.skipIf.isEmpty

/-- The directive of a field. A field has at most one, and skipping comes before including. -/
def directive? (c : Conditions) (key : String) : Option String :=
  match c.skipIf.get? key with
  | some v => some ("@skip(if: " ++ v.text ++ ")")
  | none =>
    match c.includeIf.get? key with
    | some v => some ("@include(if: " ++ v.text ++ ")")
    | none => none

end Conditions

/-! ## The tree -/

mutual

/-- A field with all that hangs on it. -/
structure Node where
  /-- The name of the field, also the type that the node stands for. -/
  typeName : String
  arguments : OrderedMap Value
  conditions : Conditions
  fields : OrderedMap Entry
  /-- Fragments that the fields below refer to. -/
  fragments : List Fragment
  /-- Whether the node has not been selected by another item yet. -/
  isOperation : Bool
  kind : OperationKind
  /-- The name of the operation that the node becomes, if it becomes one. -/
  operationName : Option String

/-- What a selection set holds under a response key. -/
inductive Entry where
  /-- A field without anything on it, or `...` and the name of a fragment. -/
  | field (name : String)
  /-- A node, and whether its key was chosen or is its type name. -/
  | node (explicitKey : Bool) (node : Node)

/-- A named selection set on a type. -/
structure Fragment where
  name : String
  onType : String
  fields : OrderedMap Entry

end

/-- Entries by response key. -/
abbrev SelectionSet := OrderedMap Entry

/-- What a caller selects. -/
inductive Selection where
  | field (name : String)
  | fieldAs (key name : String)
  | node (node : Node)
  | nodeAs (key : String) (node : Node)

/-- Whether the name of a field spreads a fragment. -/
def isSpread (name : String) : Bool := "...".toList.isPrefixOf name.toList

/-! ## Selecting -/

/-- The response key that a selection says it is stored under. -/
def Selection.key : Selection → String
  | .field name => name
  | .fieldAs key _ => key
  | .node n => n.typeName
  | .nodeAs key _ => key

namespace Node

/-- The node as a part of another item, selected under its own name or a chosen key. -/
def attached (n : Node) : (key : Option String) → Node
  | some key => { n with
      isOperation := false
      typeName := if n.typeName = "" then key else n.typeName }
  | none => { n with isOperation := false }

end Node

namespace SelectionSet

/-- Stores a selection. A node is stored as a part of the item: under a chosen key, or under
the type name that it has by then. -/
def select (s : SelectionSet) : Selection → SelectionSet
  | .fieldAs key name => s.insert key (.field name)
  | .nodeAs key n => s.insert key (.node true (n.attached (some key)))
  | .field name => s.insert name (.field name)
  | .node n =>
    let part := n.attached none
    s.insert part.typeName (.node false part)

def selectAll (s : SelectionSet) (selections : List Selection) : SelectionSet :=
  selections.foldl select s

/-- Forgets what is stored under these keys. -/
def deselect (s : SelectionSet) (keys : List String) : SelectionSet := s.eraseAll keys

end SelectionSet

/-- What a selection stores under its key. -/
def Selection.entry : Selection → Entry
  | .field name => .field name
  | .fieldAs _ name => .field name
  | .node n => .node false (n.attached none)
  | .nodeAs key n => .node true (n.attached (some key))

/-- The key that a caller is told is the one under which a selection is stored: becoming a part
of an item leaves the type name of a node without a chosen key as it is. -/
theorem SelectionSet.select_eq (s : SelectionSet) (selection : Selection) :
    s.select selection = s.insert selection.key selection.entry := by
  cases selection <;> rfl

namespace Entry

/-- The name of a plain field or spread. -/
def fieldName? : Entry → Option String
  | field name => some name
  | node _ _ => none

def node? : Entry → Option Node
  | field _ => none
  | node _ n => some n

/-- Whether the entry spreads a fragment. -/
def isSpread : Entry → Bool
  | field name => QueryDoc.isSpread name
  | node _ _ => false

end Entry

/-! ## Building nodes -/

namespace Node

/-- A node of this kind, without a type name or anything else. -/
def new (kind : OperationKind) : Node where
  typeName := ""
  arguments := .empty
  conditions := .empty
  fields := .empty
  fragments := []
  isOperation := true
  kind := kind
  operationName := none

def withTypeName (n : Node) (name : String) : Node := { n with typeName := name }

def argument (n : Node) (name : String) (value : Value) : Node :=
  { n with arguments := n.arguments.insert name value }

def withArguments (n : Node) (arguments : List (String × Value)) : Node :=
  { n with arguments := n.arguments.insertAll arguments }

def select (n : Node) (selection : Selection) : Node :=
  { n with fields := SelectionSet.select n.fields selection }

def selectAll (n : Node) (selections : List Selection) : Node :=
  { n with fields := SelectionSet.selectAll n.fields selections }

def deselect (n : Node) (keys : List String) : Node :=
  { n with fields := SelectionSet.deselect n.fields keys }

/-- Skips the fields selected under these keys if the variables hold. -/
def skipIf (n : Node) (conditions : List (String × VariableRef)) : Node :=
  { n with conditions :=
      { n.conditions with skipIf := n.conditions.skipIf.insertAll conditions } }

/-- Includes the fields selected under these keys only if the variables hold. -/
def includeIf (n : Node) (conditions : List (String × VariableRef)) : Node :=
  { n with conditions :=
      { n.conditions with includeIf := n.conditions.includeIf.insertAll conditions } }

def withOperationName (n : Node) (name : String) : Node :=
  { n with operationName := some name }

def addFragment (n : Node) (fragment : Fragment) : Node :=
  { n with fragments := n.fragments ++ [fragment] }

/-- A node with its arguments and fields. -/
def build (kind : OperationKind) (typeName : String) (arguments : List (String × Value))
    (selections : List Selection) : Node :=
  (((new kind).withTypeName typeName).withArguments arguments).selectAll selections

end Node

/-! ## Building fragments -/

namespace Fragment

/-- A fragment without fields. -/
def new (name onType : String) : Fragment := ⟨name, onType, .empty⟩

def select (f : Fragment) (selection : Selection) : Fragment :=
  { f with fields := SelectionSet.select f.fields selection }

def selectAll (f : Fragment) (selections : List Selection) : Fragment :=
  { f with fields := SelectionSet.selectAll f.fields selections }

def deselect (f : Fragment) (keys : List String) : Fragment :=
  { f with fields := SelectionSet.deselect f.fields keys }

/-- A fragment with its fields. -/
def build (name onType : String) (selections : List Selection) : Fragment :=
  (new name onType).selectAll selections

/-- The field that stands for the fragment in a selection set. -/
def spread (f : Fragment) : String := "..." ++ f.name

end Fragment

end QueryDoc
