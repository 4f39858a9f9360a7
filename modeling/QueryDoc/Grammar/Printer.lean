import QueryDoc.Binary64.Shortest
import QueryDoc.OrderedMap
import QueryDoc.Grammar.BlockString
import QueryDoc.Grammar.Document
import QueryDoc.Grammar.QuotedString

/-!
# QueryDoc.Grammar.Printer

Documents in their canonical form: one selection per line, indented by its level, and an
empty line between definitions.

`indent` is the number of blanks per level and `depth` the level of the line on which a
value stands, which decides how far a block string in it is indented.
-/

namespace QueryDoc.Grammar

/-- The blanks in front of a line. -/
def margin (indent depth : Nat) : List Char := List.replicate (indent * depth) ' '

/-! ## Values -/

/-- Whether a string is written between triple quotes: if it has a line feed, and all of its
characters stand for themselves. -/
def isBlockText (cs : List Char) : Bool := cs.contains '\n' && cs.all QuotedString.isPlain

/-- A string with its quotes. -/
def stringText (indent depth : Nat) (s : String) : String :=
  if isBlockText s.toList then
    "\"\"\"" ++
      String.ofList
        (BlockString.encode (margin indent (depth + 1)) (margin indent depth) s.toList) ++
      "\"\"\""
  else "\"" ++ String.ofList (QuotedString.encode s.toList) ++ "\""

mutual

def Value.text (indent depth : Nat) : Value → String
  | .name s => s
  | .int n => String.ofList (Decimal.intText n.toInt)
  | .float x => String.ofList x.plainText
  | .string s => stringText indent depth s
  | .reference s => "$" ++ s
  | .list items => "[" ++ ", ".intercalate (itemTexts indent depth items) ++ "]"
  | .object fields =>
    "\x7b" ++
      ", ".intercalate
        ((OrderedMap.ofList (fieldTexts indent depth fields)).sorted.map fun f =>
          f.1 ++ ": " ++ f.2) ++
      "\x7d"

def itemTexts (indent depth : Nat) : List Value → List String
  | [] => []
  | v :: vs => v.text indent depth :: itemTexts indent depth vs

/-- The text of each field's value beside its key. -/
def fieldTexts (indent depth : Nat) : List (String × Value) → List (String × String)
  | [] => []
  | (key, v) :: fields => (key, v.text indent depth) :: fieldTexts indent depth fields

end

/-! ## Arguments, directives and variables -/

/-- Arguments in parentheses, or nothing. -/
def argumentsText (indent depth : Nat) (arguments : Arguments) : String :=
  if arguments.isEmpty then ""
  else
    "(" ++ ", ".intercalate (arguments.map fun a => a.1 ++ ": " ++ a.2.text indent depth) ++ ")"

/-- Directives, each behind a blank. -/
def directivesText (indent depth : Nat) (directives : List Directive) : String :=
  String.join (directives.map fun d =>
    " @" ++ d.name ++ argumentsText indent depth d.arguments)

def TypeRef.text : TypeRef → String
  | named s required => s ++ if required then "!" else ""
  | list item required => "[" ++ item.text ++ "]" ++ if required then "!" else ""

def VariableDefinition.text (indent : Nat) (v : VariableDefinition) : String :=
  "$" ++ v.name ++ ": " ++ v.type.text ++
    match v.initial with
    | some value => " = " ++ value.text indent 0
    | none => ""

/-- Variables in parentheses, or nothing. -/
def variablesText (indent : Nat) (separator : String)
    (definitions : List VariableDefinition) : String :=
  if definitions.isEmpty then ""
  else "(" ++ separator.intercalate (definitions.map (VariableDefinition.text indent)) ++ ")"

/-! ## Selections -/

/-- A blank and a name, or nothing. -/
def spacedName : Option String → String
  | some s => " " ++ s
  | none => ""

/-- Lines between braces; the opening one stands at the end of the line before them. -/
def blockText (indent depth : Nat) (linesText : String) : String :=
  "\x7b\n" ++ linesText ++ String.ofList (margin indent depth) ++ "\x7d\n"

mutual

/-- The lines of a selection. -/
def Selection.text (indent depth : Nat) : Selection → String
  | .field key name arguments directives selections =>
    String.ofList (margin indent depth) ++
      (match key with
        | some key => key ++ ": "
        | none => "") ++
      name ++ argumentsText indent depth arguments ++ directivesText indent depth directives ++
      (if selections.isEmpty then "\n"
        else " " ++ blockText indent depth (selectionsText indent (depth + 1) selections))
  | .spread name directives =>
    String.ofList (margin indent depth) ++ "..." ++ name ++
      directivesText indent depth directives ++ "\n"
  | .inlineFragment onType directives selections =>
    String.ofList (margin indent depth) ++ "..." ++
      (match onType with
        | some type => " on " ++ type
        | none => "") ++
      directivesText indent depth directives ++ " " ++
      blockText indent depth (selectionsText indent (depth + 1) selections)

/-- The lines of selections. -/
def selectionsText (indent depth : Nat) : List Selection → String
  | [] => ""
  | s :: ss => s.text indent depth ++ selectionsText indent depth ss

end

/-! ## Definitions -/

/-- The variables of an operation. Those of a subscription stand side by side, and only
behind a name. -/
def operationVariablesText (indent : Nat) (type : OperationType) (name : Option String)
    (definitions : List VariableDefinition) : String :=
  match type, name with
  | .subscription, none => ""
  | .subscription, some _ => variablesText indent "" definitions
  | _, _ => variablesText indent ", " definitions

/-- The lines of a definition. -/
def Definition.text (indent : Nat) : Definition → String
  | selectionSet selections => blockText indent 0 (selectionsText indent 1 selections)
  | operation type name definitions directives selections =>
    type.keyword ++ spacedName name ++ operationVariablesText indent type name definitions ++
      directivesText indent 0 directives ++ " " ++
      blockText indent 0 (selectionsText indent 1 selections)
  | fragment name onType directives selections =>
    "fragment " ++ name ++ " on " ++ onType ++ directivesText indent 0 directives ++ " " ++
      blockText indent 0 (selectionsText indent 1 selections)

/-- The text of a document. -/
def print (indent : Nat) (document : Document) : String :=
  "\n".intercalate (document.map (Definition.text indent))

end QueryDoc.Grammar
