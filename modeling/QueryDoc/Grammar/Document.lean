import QueryDoc.Binary64

/-!
# QueryDoc.Grammar.Document

Executable documents: operations and fragments with their selections, as the grammar
derives them. Lists that the grammar requires to have a member are optional here where they
stand in brackets of their own: an empty list means that the brackets are missing.
-/

namespace QueryDoc.Grammar

/-- A value in a document. -/
inductive Value where
  /-- A bare word: a boolean, null, or a value of an enumeration. -/
  | name (name : String)
  | int (n : Int64)
  | float (x : Binary64)
  | string (s : String)
  | reference (name : String)
  | list (items : List Value)
  | object (fields : List (String × Value))

/-- A reference to a type. -/
inductive TypeRef where
  | named (name : String) (required : Bool)
  | list (item : TypeRef) (required : Bool)
deriving DecidableEq

/-- Arguments in the order in which they stand. -/
abbrev Arguments := List (String × Value)

/-- A directive such as `@include(if: $x)`. -/
structure Directive where
  name : String
  arguments : Arguments

/-- A variable with its type and its default. -/
structure VariableDefinition where
  name : String
  type : TypeRef
  initial : Option Value

/-- A selection. A field without a selection set of its own has no selections. -/
inductive Selection where
  | field (key : Option String) (name : String) (arguments : Arguments)
      (directives : List Directive) (selections : List Selection)
  | spread (name : String) (directives : List Directive)
  | inlineFragment (onType : Option String) (directives : List Directive)
      (selections : List Selection)

/-- What an operation does. -/
inductive OperationType where
  | query
  | mutation
  | subscription
deriving DecidableEq

/-- The keyword in front of an operation. -/
def OperationType.keyword : OperationType → String
  | query => "query"
  | mutation => "mutation"
  | subscription => "subscription"

/-- A selection set on its own is a query without a keyword. -/
inductive Definition where
  /-- A query that is nothing but its selections. -/
  | selectionSet (selections : List Selection)
  | operation (type : OperationType) (name : Option String)
      (variableDefinitions : List VariableDefinition) (directives : List Directive)
      (selections : List Selection)
  | fragment (name onType : String) (directives : List Directive) (selections : List Selection)

/-- A document is a list of definitions. The grammar demands at least one. -/
abbrev Document := List Definition

end QueryDoc.Grammar
