import QueryDoc.Node

/-!
# QueryDoc.Node.Equality

Equality of nodes and fragments. Arguments, conditions and entries agree by key in any
order; attached fragments agree in order. Values are compared by `Value.equals`, so a node
that holds a float that is no number differs even from itself.
-/

namespace QueryDoc

/-- Whether two maps of variables agree by key. -/
def referencesAgree (as bs : OrderedMap VariableRef) : Bool :=
  as.size == bs.size && as.entries.all fun e => bs.get? e.1 == some e.2

def Conditions.equals (a b : Conditions) : Bool :=
  referencesAgree a.includeIf b.includeIf && referencesAgree a.skipIf b.skipIf

/-- Whether two argument maps agree by name. -/
def argumentsAgree (as bs : OrderedMap Value) : Bool :=
  as.size == bs.size && Value.fieldsAgree as.entries bs

mutual

def Node.equals : Node → Node → Bool
  | ⟨typeName, arguments, conditions, ⟨entries⟩, fragments, isOperation, kind, operationName⟩, b =>
    argumentsAgree arguments b.arguments && conditions.equals b.conditions &&
      (entries.length == b.fields.size && entriesAgree entries b.fields) &&
      fragmentsEqual fragments b.fragments && isOperation == b.isOperation && kind == b.kind &&
      operationName == b.operationName && typeName == b.typeName

def Entry.equals : Entry → Entry → Bool
  | .field a, .field b => a == b
  | .node explicit a, .node explicit' b => explicit == explicit' && a.equals b
  | _, _ => false

/-- Whether each of these entries has an equal one under the same key. -/
def entriesAgree : List (String × Entry) → SelectionSet → Bool
  | [], _ => true
  | (key, a) :: as, bs =>
    (match bs.get? key with
      | some b => a.equals b
      | none => false) && entriesAgree as bs

def Fragment.equals : Fragment → Fragment → Bool
  | ⟨name, onType, ⟨entries⟩⟩, b =>
    (entries.length == b.fields.size && entriesAgree entries b.fields) && name == b.name &&
      onType == b.onType

/-- Whether two lists hold equal fragments in the same order. -/
def fragmentsEqual : List Fragment → List Fragment → Bool
  | [], [] => true
  | a :: as, b :: bs => a.equals b && fragmentsEqual as bs
  | _, _ => false

end

/-- Whether two selection sets agree by key. -/
def SelectionSet.equals (a b : SelectionSet) : Bool :=
  a.size == b.size && entriesAgree a.entries b

end QueryDoc
