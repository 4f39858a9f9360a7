import QueryDoc.Grammar.Document
import QueryDoc.Grammar.Terminal

/-!
# QueryDoc.Grammar.Parser

Reading documents. Each function reads a phrase of the grammar off the front of a row of
terminals, with one terminal of lookahead. Where it fails it returns the terminals from the
first one on that cannot continue the phrase, so that `parse` can tell its place.

The functions that call themselves take the number of calls that they may nest. A call
reads a terminal at the latest when the next one does, so twice the number of terminals is
enough (`room`).
-/

namespace QueryDoc.Grammar

/-- The terminals that are left to read. -/
abbrev Input := List Terminal

namespace Parser

/-- Enough nested calls for any phrase in front of these terminals. -/
def room (ts : Input) : Nat := 2 * ts.length + 2

/-! ## Single terminals -/

/-- A name. -/
def name : Input → Except Input (String × Input)
  | .name s :: ts => .ok (s, ts)
  | ts => .error ts

/-- This mark. -/
def mark (c : Char) : Input → Except Input (Unit × Input)
  | .mark d :: ts => if d = c then .ok ((), ts) else .error (.mark d :: ts)
  | ts => .error ts

/-- This name. -/
def keyword (word : String) : Input → Except Input (Unit × Input)
  | .name s :: ts => if s = word then .ok ((), ts) else .error (.name s :: ts)
  | ts => .error ts

/-! ## Values -/

mutual

/-- A value; a constant has no references to variables in it. -/
def value (constant : Bool) : (room : Nat) → Input → Except Input (Value × Input)
  | 0, ts => .error ts
  | n + 1, ts =>
    match ts with
    | .name s :: ts => .ok (.name s, ts)
    | .int i :: ts => .ok (.int i, ts)
    | .float x :: ts => .ok (.float x, ts)
    | .string s :: ts => .ok (.string s, ts)
    | .mark c :: rest =>
      if c = '$' ∧ constant = false then do
        let (s, rest) ← name rest
        .ok (.reference s, rest)
      else if c = '[' then do
        let (items, rest) ← listItems constant n rest
        .ok (.list items, rest)
      else if c = '{' then do
        let (fields, rest) ← objectFields constant n rest
        .ok (.object fields, rest)
      else .error ts
    | ts => .error ts

/-- Values up to a closing bracket. -/
def listItems (constant : Bool) : (room : Nat) → Input → Except Input (List Value × Input)
  | 0, ts => .error ts
  | n + 1, ts =>
    match mark ']' ts with
    | .ok (_, rest) => .ok ([], rest)
    | .error _ => do
      let (v, ts) ← value constant n ts
      let (vs, ts) ← listItems constant n ts
      .ok (v :: vs, ts)

/-- Fields of an object up to a closing brace. -/
def objectFields (constant : Bool) :
    (room : Nat) → Input → Except Input (List (String × Value) × Input)
  | 0, ts => .error ts
  | n + 1, ts =>
    match mark '}' ts with
    | .ok (_, rest) => .ok ([], rest)
    | .error _ => do
      let (key, ts) ← name ts
      let (_, ts) ← mark ':' ts
      let (v, ts) ← value constant n ts
      let (fields, ts) ← objectFields constant n ts
      .ok ((key, v) :: fields, ts)

end

/-! ## Arguments and directives -/

/-- Arguments up to a closing parenthesis, at least one. -/
def argumentList : (room : Nat) → Input → Except Input (Arguments × Input)
  | 0, ts => .error ts
  | n + 1, ts => do
    let (key, ts) ← name ts
    let (_, ts) ← mark ':' ts
    let (v, ts) ← value false (room ts) ts
    match mark ')' ts with
    | .ok (_, rest) => .ok ([(key, v)], rest)
    | .error _ =>
      let (arguments, ts) ← argumentList n ts
      .ok ((key, v) :: arguments, ts)

/-- Arguments in parentheses, or none. -/
def arguments (ts : Input) : Except Input (Arguments × Input) :=
  match mark '(' ts with
  | .ok (_, rest) => argumentList (room rest) rest
  | .error _ => .ok ([], ts)

/-- Directives, as many as there are. -/
def directiveList : (room : Nat) → Input → Except Input (List Directive × Input)
  | 0, ts => .error ts
  | n + 1, ts =>
    match mark '@' ts with
    | .ok (_, rest) => do
      let (s, rest) ← name rest
      let (as, rest) ← arguments rest
      let (ds, rest) ← directiveList n rest
      .ok (⟨s, as⟩ :: ds, rest)
    | .error _ => .ok ([], ts)

def directives (ts : Input) : Except Input (List Directive × Input) := directiveList (room ts) ts

/-! ## Types and variables -/

/-- Whether an exclamation mark follows, which is read if so. -/
def required (ts : Input) : Bool × Input :=
  match mark '!' ts with
  | .ok (_, rest) => (true, rest)
  | .error _ => (false, ts)

/-- A type: a name or a type in brackets, with an exclamation mark if it is required. -/
def typeRef : (room : Nat) → Input → Except Input (TypeRef × Input)
  | 0, ts => .error ts
  | n + 1, ts =>
    match mark '[' ts with
    | .ok (_, rest) => do
      let (item, rest) ← typeRef n rest
      let (_, rest) ← mark ']' rest
      let (r, rest) := required rest
      .ok (.list item r, rest)
    | .error _ => do
      let (s, ts) ← name ts
      let (r, ts) := required ts
      .ok (.named s r, ts)

/-- The value behind an equals sign, or none. -/
def initialValue (ts : Input) : Except Input (Option Value × Input) :=
  match mark '=' ts with
  | .ok (_, rest) => do
    let (v, rest) ← value true (room rest) rest
    .ok (some v, rest)
  | .error _ => .ok (none, ts)

/-- Variables up to a closing parenthesis, at least one. -/
def variableList : (room : Nat) → Input → Except Input (List VariableDefinition × Input)
  | 0, ts => .error ts
  | n + 1, ts => do
    let (_, ts) ← mark '$' ts
    let (s, ts) ← name ts
    let (_, ts) ← mark ':' ts
    let (type, ts) ← typeRef (room ts) ts
    let (initial, ts) ← initialValue ts
    match mark ')' ts with
    | .ok (_, rest) => .ok ([⟨s, type, initial⟩], rest)
    | .error _ =>
      let (vs, ts) ← variableList n ts
      .ok (⟨s, type, initial⟩ :: vs, ts)

/-- Variables in parentheses, or none. -/
def variableDefinitions (ts : Input) : Except Input (List VariableDefinition × Input) :=
  match mark '(' ts with
  | .ok (_, rest) => variableList (room rest) rest
  | .error _ => .ok ([], ts)

/-! ## Selections -/

/-- A field's key and name, or its name alone. -/
def fieldName (ts : Input) : Except Input ((Option String × String) × Input) := do
  let (first, ts) ← name ts
  match mark ':' ts with
  | .ok (_, rest) =>
    let (second, rest) ← name rest
    .ok ((some first, second), rest)
  | .error _ => .ok ((none, first), ts)

mutual

/-- A selection set: a brace and selections up to the closing one. -/
def selectionSet : (room : Nat) → Input → Except Input (List Selection × Input)
  | 0, ts => .error ts
  | n + 1, ts => do
    let (_, ts) ← mark '{' ts
    selectionList n ts

/-- Selections up to a closing brace, at least one. -/
def selectionList : (room : Nat) → Input → Except Input (List Selection × Input)
  | 0, ts => .error ts
  | n + 1, ts => do
    let (s, ts) ← selection n ts
    match mark '}' ts with
    | .ok (_, rest) => .ok ([s], rest)
    | .error _ =>
      let (ss, ts) ← selectionList n ts
      .ok (s :: ss, ts)

/-- A field, a spread or an inline fragment. The name `on` behind the dots always stands in
front of a type. -/
def selection : (room : Nat) → Input → Except Input (Selection × Input)
  | 0, ts => .error ts
  | n + 1, ts =>
    match ts with
    | .spread :: .name s :: rest =>
      if s = "on" then do
        let (onType, rest) ← name rest
        let (ds, rest) ← directives rest
        let (ss, rest) ← selectionSet n rest
        .ok (.inlineFragment (some onType) ds ss, rest)
      else do
        let (ds, rest) ← directives rest
        .ok (.spread s ds, rest)
    | .spread :: rest => do
      let (ds, rest) ← directives rest
      let (ss, rest) ← selectionSet n rest
      .ok (.inlineFragment none ds ss, rest)
    | ts => do
      let ((key, s), ts) ← fieldName ts
      let (as, ts) ← arguments ts
      let (ds, ts) ← directives ts
      match mark '{' ts with
      | .ok _ =>
        let (ss, ts) ← selectionSet n ts
        .ok (.field key s as ds ss, ts)
      | .error _ => .ok (.field key s as ds [], ts)

end

def selections (ts : Input) : Except Input (List Selection × Input) := selectionSet (room ts) ts

/-! ## Definitions -/

/-- The rest of an operation behind its keyword. -/
def operation (type : OperationType) (ts : Input) : Except Input (Definition × Input) := do
  let (s, ts) := match name ts with
    | .ok (s, rest) => (some s, rest)
    | .error _ => (none, ts)
  let (vs, ts) ← variableDefinitions ts
  let (ds, ts) ← directives ts
  let (ss, ts) ← selections ts
  .ok (.operation type s vs ds ss, ts)

/-- The rest of a fragment behind its keyword. -/
def fragment (ts : Input) : Except Input (Definition × Input) := do
  let (s, ts) ← name ts
  let (_, ts) ← keyword "on" ts
  let (onType, ts) ← name ts
  let (ds, ts) ← directives ts
  let (ss, ts) ← selections ts
  .ok (.fragment s onType ds ss, ts)

/-- An operation, a fragment, or selections alone. -/
def definition (ts : Input) : Except Input (Definition × Input) :=
  match ts with
  | .name s :: rest =>
    if s = "query" then operation .query rest
    else if s = "mutation" then operation .mutation rest
    else if s = "subscription" then operation .subscription rest
    else if s = "fragment" then fragment rest
    else .error ts
  | ts => do
    let (ss, ts) ← selections ts
    .ok (.selectionSet ss, ts)

/-- Definitions, at least one, and nothing behind them. -/
def document : (room : Nat) → Input → Except (Input) Document
  | 0, ts => .error ts
  | n + 1, ts => do
    let (d, ts) ← definition ts
    if ts.isEmpty then .ok [d]
    else
      let ds ← document n ts
      .ok (d :: ds)

end Parser

/-- The document that a text is, or the place of what cannot continue it. -/
def parse (text : List Char) : Except Position Document :=
  let read := terminals text
  let ts := read.items.map Prod.fst
  match Parser.document (Parser.room ts) ts with
  | .error rest => .error (read.placeOfLast rest.length)
  | .ok document => if read.complete then .ok document else .error read.stop

end QueryDoc.Grammar
