import QueryDoc.Node.Text
import QueryDoc.Node.Equality

/-!
# QueryDoc.Operation

An operation is the root of a document: a query or a mutation with its variables, its
fields, and the fragments that are defined behind it.

`definedFragments` finds these fragments: those attached to the operation, then those
attached to nodes anywhere in the tree, the fragments' own fields included. Of fragments
with one name the first is kept. `text` is the whole document before it is put into its
canonical form.
-/

namespace QueryDoc

/-- A query or a mutation. -/
structure Operation where
  fields : SelectionSet
  fragments : List Fragment
  kind : OperationKind
  /-- Empty for an operation without a name. -/
  name : String
  /-- The types of the variables, by name without `$`. -/
  variableTypes : OrderedMap String

namespace Operation

/-! ## Building -/

/-- An operation without fields. -/
def new (kind : OperationKind) (name : String) : Operation where
  fields := .empty
  fragments := []
  kind := kind
  name := name
  variableTypes := .empty

/-- An operation of the kind that a keyword names. -/
def ofKeyword (keyword name : String) : Except BuildError Operation :=
  (OperationKind.ofKeyword keyword).map fun kind => new kind name

def select (o : Operation) (selection : Selection) : Operation :=
  { o with fields := o.fields.select selection }

def selectAll (o : Operation) (selections : List Selection) : Operation :=
  { o with fields := o.fields.selectAll selections }

def deselect (o : Operation) (keys : List String) : Operation :=
  { o with fields := o.fields.deselect keys }

def addFragment (o : Operation) (fragment : Fragment) : Operation :=
  { o with fragments := o.fragments ++ [fragment] }

/-- Declares a variable, given with or without its dollar sign. -/
def declare (o : Operation) (name type : String) : Operation :=
  { o with variableTypes := o.variableTypes.insert (VariableRef.ofText name).name type }

def declareAll (o : Operation) (types : List (String × String)) : Operation :=
  types.foldl (fun o v => o.declare v.1 v.2) o

/-- An operation with its variables and fields. -/
def build (keyword name : String) (types : List (String × String))
    (selections : List Selection) : Except BuildError Operation :=
  (ofKeyword keyword name).map fun o => (o.declareAll types).selectAll selections

end Operation

/-- The operation of the node's kind whose only field is the node. -/
def Node.toOperation (n : Node) : Operation :=
  (Operation.new n.kind (n.operationName.getD "")).select (.node n)

/-! ## Fragments -/

/-- Adds a fragment unless one of its name is there. -/
def addDistinct (found : List Fragment) (f : Fragment) : List Fragment :=
  if found.any fun g => g.name == f.name then found else found ++ [f]

/-- A step of the search for fragments: it adds to what has been found so far. -/
abbrev Collector := List Fragment → List Fragment

/-- Takes steps in the order of their keys. -/
def collectByKey (steps : List (String × Collector)) (found : List Fragment) : List Fragment :=
  (sortByKey steps).foldl (fun found step => step.2 found) found

mutual

/-- The fragments attached to a node, each followed by those below its fields, and then
those below the node's fields. -/
def Node.collect : Node → Collector
  | ⟨_, _, _, ⟨entries⟩, fragments, _, _, _⟩, found =>
    collectByKey (entryCollectors entries) (collectAttached fragments found)

/-- The fragments attached anywhere below the fields of a fragment. -/
def Fragment.collect : Fragment → Collector
  | ⟨_, _, ⟨entries⟩⟩, found => collectByKey (entryCollectors entries) found

def Entry.collect : Entry → Collector
  | .field _, found => found
  | .node _ n, found => n.collect found

/-- The step of each entry beside its key. -/
def entryCollectors : List (String × Entry) → List (String × Collector)
  | [] => []
  | (key, e) :: rest => (key, fun found => e.collect found) :: entryCollectors rest

/-- Each fragment of a list, followed by those below its fields. -/
def collectAttached : List Fragment → Collector
  | [], found => found
  | f :: rest, found => collectAttached rest (f.collect (addDistinct found f))

end

namespace Operation

/-- The fragments defined behind the operation. Its own come first, and of fragments with
one name the first is kept. -/
def definedFragments (o : Operation) : List Fragment :=
  let own := o.fragments.foldl addDistinct []
  let nested := o.fragments.foldl (fun found f => f.collect found) own
  collectByKey (entryCollectors o.fields.entries) nested

/-! ## Text -/

/-- The variables with their types in the order of declaration, in parentheses. -/
def variablesText (o : Operation) : String :=
  if o.variableTypes.isEmpty then ""
  else
    "(" ++
      ", ".intercalate (o.variableTypes.entries.map fun v => "$" ++ v.1 ++ ": " ++ v.2) ++ ")"

/-- The document as built: the operation on one line, and each fragment behind an empty
line. -/
def text (o : Operation) : String :=
  o.kind.keyword ++ (if o.name = "" then "" else " " ++ o.name) ++ o.variablesText ++
    " \x7b " ++ SelectionSet.text .always .empty o.fields ++ " \x7d" ++
    String.join (o.definedFragments.map fun f => "\n\n" ++ f.text)

/-! ## Equality -/

/-- Equality of operations; variables agree by name in any order. -/
def equals (a b : Operation) : Bool :=
  a.fields.equals b.fields && fragmentsEqual a.fragments b.fragments && a.kind == b.kind &&
    a.name == b.name && a.variableTypes.size == b.variableTypes.size &&
    a.variableTypes.entries.all fun v => b.variableTypes.get? v.1 == some v.2

end Operation

end QueryDoc
