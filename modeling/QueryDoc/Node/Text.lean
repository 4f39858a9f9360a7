import QueryDoc.Node

/-!
# QueryDoc.Node.Text

The text of nodes and fragments, on one line. Arguments and entries are written in the
order of their names and keys, whatever the order in which they were stored.

An entry is written with its key in front if the key was chosen. At the root of a fragment
a chosen key that repeats the node's type name is left out.
-/

namespace QueryDoc

/-- When a chosen key is written in front of a node. -/
inductive KeyStyle where
  | always
  /-- Only if it differs from the node's type name. -/
  | whenDistinct
deriving DecidableEq, Repr

/-- Whether the key of a node is written in front of it. -/
def KeyStyle.writes (style : KeyStyle) (explicitKey : Bool) (key typeName : String) : Bool :=
  explicitKey && match style with
    | .always => true
    | .whenDistinct => key != typeName

/-- Arguments in parentheses, in the order of their names; nothing if there are none. -/
def argumentsText (arguments : OrderedMap Value) : String :=
  if arguments.isEmpty then ""
  else
    "(" ++ ", ".intercalate (arguments.sorted.map fun a => a.1 ++ ": " ++ a.2.text) ++ ")"

/-- A blank and the text, or nothing. -/
def spaced : Option String → String
  | some text => " " ++ text
  | none => ""

/-- The texts of entries, put in the order of their keys and separated. -/
def joinByKey (texts : List (String × String)) : String :=
  ", ".intercalate ((sortByKey texts).map Prod.snd)

/-- The text of a plain field; a spread has neither key nor directive. -/
def fieldText (conditions : Conditions) (key name : String) : String :=
  if isSpread name then name
  else (if key = name then name else key ++ ": " ++ name) ++ spaced (conditions.directive? key)

mutual

/-- The text of a node with a directive behind its arguments. -/
def Node.textWith : Node → (directive : Option String) → String
  | ⟨typeName, arguments, conditions, ⟨entries⟩, _, _, _, _⟩, directive =>
    typeName ++
      (if arguments.isEmpty then "" else " " ++ argumentsText arguments) ++
      spaced directive ++
      (if entries.isEmpty then ""
        else " \x7b " ++ joinByKey (entryTexts .always conditions entries) ++ " \x7d")

/-- The text of what stands under a key in a selection set with these conditions. -/
def Entry.text (style : KeyStyle) (conditions : Conditions) (key : String) : Entry → String
  | .field name => fieldText conditions key name
  | .node explicitKey n =>
    (if style.writes explicitKey key n.typeName then key ++ ": " else "") ++
      n.textWith (conditions.directive? key)

/-- Each entry's text beside its key. -/
def entryTexts (style : KeyStyle) (conditions : Conditions) :
    List (String × Entry) → List (String × String)
  | [] => []
  | (key, e) :: rest => (key, e.text style conditions key) :: entryTexts style conditions rest

end

/-- The entries of a selection set in the order of their keys. -/
def SelectionSet.text (style : KeyStyle) (conditions : Conditions) (s : SelectionSet) : String :=
  joinByKey (entryTexts style conditions s.entries)

/-- The text of a node on its own. -/
def Node.text (n : Node) : String := n.textWith none

/-- The definition of a fragment. -/
def Fragment.text (f : Fragment) : String :=
  "fragment " ++ f.name ++ " on " ++ f.onType ++ " \x7b " ++
    SelectionSet.text .whenDistinct .empty f.fields ++ " \x7d"

end QueryDoc
