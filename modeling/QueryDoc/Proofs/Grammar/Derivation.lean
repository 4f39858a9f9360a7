import Mathlib
import QueryDoc.Grammar.Parser

/-!
# QueryDoc.Proofs.Grammar.Derivation

What the grammar derives: the row of terminals that a document stands for.

A document is flattened into slots first (`Document.slots`), so that what is fixed by the
grammar around its values can be told from the values themselves. `Document.WellFormed`
says what the types of documents leave open: which lists have a member, which values are
constant, and that no fragment is called `on`.

`QueryDoc.Proofs.Grammar.Soundness` and `QueryDoc.Proofs.Grammar.Completeness` prove that the
parser reads exactly these rows.
-/

namespace QueryDoc.Grammar

/-! ## Values -/

mutual

/-- The terminals of a value, in order. -/
def Value.terminals : Value → List Terminal
  | .name s => [.name s]
  | .int n => [.int n]
  | .float x => [.float x]
  | .string s => [.string s]
  | .reference s => [.mark '$', .name s]
  | .list items => .mark '[' :: (itemTerminals items ++ [.mark ']'])
  | .object fields => .mark '\x7b' :: (fieldTerminals fields ++ [.mark '\x7d'])

/-- The terminals of items. Commas carry no meaning, so that nothing stands between items. -/
def itemTerminals : List Value → List Terminal
  | [] => []
  | v :: vs => v.terminals ++ itemTerminals vs

/-- The terminals of fields: each name is followed by a colon. -/
def fieldTerminals : List (String × Value) → List Terminal
  | [] => []
  | (key, v) :: fields => .name key :: .mark ':' :: (v.terminals ++ fieldTerminals fields)

end

mutual

/-- Whether there is no reference to a variable in a value. -/
def Value.isConstant : Value → Bool
  | .reference _ => false
  | .list items => itemsConstant items
  | .object fields => fieldsConstant fields
  | _ => true

/-- Whether all items are constant. -/
def itemsConstant : List Value → Bool
  | [] => true
  | v :: vs => v.isConstant && itemsConstant vs

/-- Whether all fields have constant values. -/
def fieldsConstant : List (String × Value) → Bool
  | [] => true
  | (_, v) :: fields => v.isConstant && fieldsConstant fields

end

/-! ## Slots -/

/-- A part of a document: a terminal that belongs to no value, or a whole value, which is
constant where the grammar asks for that. -/
inductive Slot where
  | terminal (t : Terminal)
  | value (constant : Bool) (v : Value)

namespace Slot

/-- The slot of a punctuation mark. -/
def mark (c : Char) : Slot := .terminal (.mark c)

/-- The slot of a name. -/
def word (s : String) : Slot := .terminal (.name s)

/-- What a slot derives. -/
def terminals : Slot → List Terminal
  | terminal t => [t]
  | value _ v => v.terminals

end Slot

open Slot (mark word)

/-- Slots between brackets; nothing if there are none. -/
def bracketed (opening closing : Char) : List Slot → List Slot
  | [] => []
  | slots => mark opening :: (slots ++ [mark closing])

/-- Brackets stand around at least one slot. -/
theorem bracketed_of_ne_nil {opening closing : Char} {slots : List Slot} (h : slots ≠ []) :
    bracketed opening closing slots = mark opening :: (slots ++ [mark closing]) := by
  cases slots with
  | nil => contradiction
  | cons s ss => rfl

/-- An argument: its name, a colon and its value. -/
def argumentSlots (a : String × Value) : List Slot := [word a.1, mark ':', .value false a.2]

/-- Arguments stand in parentheses, if there are any. -/
def argumentsSlots (arguments : Arguments) : List Slot :=
  bracketed '(' ')' (arguments.flatMap argumentSlots)

/-- A directive: an at sign, its name and its arguments. -/
def Directive.slots (d : Directive) : List Slot :=
  mark '@' :: word d.name :: argumentsSlots d.arguments

def directivesSlots (directives : List Directive) : List Slot := directives.flatMap Directive.slots

/-- An exclamation mark behind a required type. -/
def requiredSlots (required : Bool) : List Slot := if required then [mark '!'] else []

/-- A type: its name, or the type of its items in brackets, then an exclamation mark if it is
required. -/
def TypeRef.slots : TypeRef → List Slot
  | named s required => word s :: requiredSlots required
  | list item required => mark '[' :: (item.slots ++ mark ']' :: requiredSlots required)

/-- A default: an equals sign and a constant value. -/
def initialSlots : Option Value → List Slot
  | some v => [mark '=', .value true v]
  | none => []

/-- A variable: a dollar sign and its name, a colon, its type and its default. -/
def VariableDefinition.slots (v : VariableDefinition) : List Slot :=
  mark '$' :: word v.name :: mark ':' :: (v.type.slots ++ initialSlots v.initial)

/-- Variables stand in parentheses, if there are any. -/
def variablesSlots (definitions : List VariableDefinition) : List Slot :=
  bracketed '(' ')' (definitions.flatMap VariableDefinition.slots)

/-- A chosen key and the colon behind it. -/
def keySlots : Option String → List Slot
  | some key => [word key, mark ':']
  | none => []

/-- The type of an inline fragment behind the word `on`. -/
def typeConditionSlots : Option String → List Slot
  | some type => [word "on", word type]
  | none => []

mutual

/-- A selection: a field with its block, a spread, or an inline fragment. -/
def Selection.slots : Selection → List Slot
  | .field key s arguments directives selections =>
    keySlots key ++ word s :: (argumentsSlots arguments ++ directivesSlots directives ++
      bracketed '\x7b' '\x7d' (selectionSlots selections))
  | .spread s directives => .terminal .spread :: word s :: directivesSlots directives
  | .inlineFragment onType directives selections =>
    .terminal .spread :: (typeConditionSlots onType ++ directivesSlots directives ++
      bracketed '\x7b' '\x7d' (selectionSlots selections))

/-- Selections follow each other without anything between them. -/
def selectionSlots : List Selection → List Slot
  | [] => []
  | s :: ss => s.slots ++ selectionSlots ss

end

/-- Selections between braces. -/
def blockSlots (selections : List Selection) : List Slot :=
  bracketed '\x7b' '\x7d' (selectionSlots selections)

/-- A definition: its keyword, what belongs to it, and its block. -/
def Definition.slots : Definition → List Slot
  | selectionSet selections => blockSlots selections
  | operation type s definitions directives selections =>
    word type.keyword :: (s.toList.map word ++ variablesSlots definitions ++
      directivesSlots directives ++ blockSlots selections)
  | fragment s onType directives selections =>
    word "fragment" :: word s :: word "on" :: word onType ::
      (directivesSlots directives ++ blockSlots selections)

/-- Definitions follow each other without anything between them. -/
def Document.slots (document : Document) : List Slot := document.flatMap Definition.slots

/-- The terminals of slots in order. -/
def slotTerminals (slots : List Slot) : List Terminal := slots.flatMap Slot.terminals

/-- The terminals that a document stands for. -/
def Document.terminals (document : Document) : List Terminal := slotTerminals document.slots

/-! ## Well-formed documents -/

mutual

/-- A selection that the grammar derives: no spread of a fragment called `on`, and no inline
fragment without selections. -/
def Selection.WellFormed : Selection → Prop
  | .field _ _ _ _ selections => selectionsWellFormed selections
  | .spread s _ => s ≠ "on"
  | .inlineFragment _ _ selections => selections ≠ [] ∧ selectionsWellFormed selections

/-- Whether the grammar derives all of these selections. -/
def selectionsWellFormed : List Selection → Prop
  | [] => True
  | s :: ss => s.WellFormed ∧ selectionsWellFormed ss

end

/-- Selections that may stand between braces. -/
def IsBlock (selections : List Selection) : Prop :=
  selections ≠ [] ∧ selectionsWellFormed selections

/-- Default values are constant. -/
def VariableDefinition.WellFormed (v : VariableDefinition) : Prop :=
  ∀ value ∈ v.initial, value.isConstant = true

/-- A definition that the grammar derives: its block is one, and its defaults are constant. -/
def Definition.WellFormed : Definition → Prop
  | selectionSet selections => IsBlock selections
  | operation _ _ definitions _ selections =>
    (∀ v ∈ definitions, v.WellFormed) ∧ IsBlock selections
  | fragment _ _ _ selections => IsBlock selections

/-- A document that the grammar derives. -/
def Document.WellFormed (document : Document) : Prop :=
  document ≠ [] ∧ ∀ d ∈ document, d.WellFormed

/-- No variables where the printer leaves them out: in a subscription without a name. -/
def Definition.ShowsVariables : Definition → Prop
  | operation .subscription none definitions _ _ => definitions = []
  | _ => True

/-! ## The terminals of slots -/

@[simp] theorem slotTerminals_nil : slotTerminals [] = [] := rfl

theorem slotTerminals_cons (slot : Slot) (ss : List Slot) :
    slotTerminals (slot :: ss) = slot.terminals ++ slotTerminals ss := rfl

@[simp] theorem slotTerminals_append (ss rs : List Slot) :
    slotTerminals (ss ++ rs) = slotTerminals ss ++ slotTerminals rs := List.flatMap_append

@[simp] theorem slotTerminals_terminal (t : Terminal) (ss : List Slot) :
    slotTerminals (.terminal t :: ss) = t :: slotTerminals ss := rfl

@[simp] theorem slotTerminals_mark (c : Char) (ss : List Slot) :
    slotTerminals (mark c :: ss) = .mark c :: slotTerminals ss := rfl

@[simp] theorem slotTerminals_word (s : String) (ss : List Slot) :
    slotTerminals (word s :: ss) = .name s :: slotTerminals ss := rfl

@[simp] theorem slotTerminals_value (constant : Bool) (v : Value) (ss : List Slot) :
    slotTerminals (.value constant v :: ss) = v.terminals ++ slotTerminals ss := rfl

/-! ## Blocks -/

theorem blockSlots_eq (ss : List Selection) :
    blockSlots ss = bracketed '\x7b' '\x7d' (selectionSlots ss) := rfl

/-- No selection is derived from nothing. -/
theorem slots_ne_nil (s : Selection) : s.slots ≠ [] := by
  cases s with
  | field key name arguments directives selections => simp [Selection.slots]
  | spread name directives => simp [Selection.slots]
  | inlineFragment onType directives selections => simp [Selection.slots]

theorem blockSlots_of_ne_nil {ss : List Selection} (h : ss ≠ []) :
    blockSlots ss = .mark '\x7b' :: (selectionSlots ss ++ [.mark '\x7d']) := by
  have hslots : selectionSlots ss ≠ [] := by
    cases ss with
    | nil => contradiction
    | cons s ss => simp [selectionSlots, slots_ne_nil s]
  rw [blockSlots, bracketed_of_ne_nil hslots]

/-- The terminals of selections between braces. -/
theorem slotTerminals_blockSlots {ss : List Selection} (h : ss ≠ []) :
    slotTerminals (blockSlots ss) =
      .mark '\x7b' :: (slotTerminals (selectionSlots ss) ++ [.mark '\x7d']) := by
  simp [blockSlots_of_ne_nil h]

end QueryDoc.Grammar
