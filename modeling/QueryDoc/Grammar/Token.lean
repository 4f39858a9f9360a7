import QueryDoc.Decimal

/-!
# QueryDoc.Grammar.Token

The tokens of documents and where they stand in a text.

`scan` reads tokens until the text ends, or until something follows that is no token: a
character that starts none, a malformed number, a string without its closing quote, or the
bracket that opens a fifty-first level. Positions count lines and columns from one.
-/

namespace QueryDoc.Grammar

/-! ## Tokens -/

inductive TokenKind where
  /-- One of the marks `! $ & ( ) : = @ [ ] { | }`. -/
  | punctuator (mark : Char)
  /-- Three dots. -/
  | spread
  | name
  | int
  | float
  /-- A string on one line, between quotes. -/
  | string
  /-- A string between triple quotes. -/
  | blockString
deriving DecidableEq, Repr

/-- A token with the text it consists of. -/
structure Token where
  kind : TokenKind
  text : List Char
deriving DecidableEq, Repr

/-! ## Numbers -/

/-- Characters at which a number ends. -/
def endsNumber (c : Char) : Bool := " \n\r\t,#!$:=@|&()[]\x7b\x7d".toList.contains c

/-- Zero with or without a minus sign, or digits that do not start with zero. -/
def isInt : List Char → Bool
  | ['0'] => true
  | ['-', '0'] => true
  | ['-'] => false
  | '0' :: _ => false
  | '-' :: '0' :: _ => false
  | _ :: digits => digits.all Char.isDigit
  | [] => false

/-- One or more digits. -/
def isFraction (cs : List Char) : Bool := !cs.isEmpty && cs.all Char.isDigit

/-- A sign or a digit from one to eight, and digits. -/
def isExponent : List Char → Bool
  | [] => false
  | c :: digits =>
    (c == '+' || c == '-' || (decide ('1' ≤ c) && decide (c ≤ '8'))) && digits.all Char.isDigit

/-- What stands in front of and behind the last character of a kind. -/
def splitAtLast (p : Char → Bool) : List Char → Option (List Char × List Char)
  | [] => none
  | c :: cs =>
    match splitAtLast p cs with
    | some (front, back) => some (c :: front, back)
    | none => if p c then some ([], cs) else none

def isExponentMark (c : Char) : Bool := c == 'e' || c == 'E'

/-- The kind of a number: an integer without point and exponent, and a float with one of
them or both; none if a part of it is malformed. -/
def numberKind? (cs : List Char) : Option TokenKind :=
  match splitAtLast (· == '.') cs with
  | none =>
    match splitAtLast isExponentMark cs with
    | none => if isInt cs then some .int else none
    | some (whole, exponent) =>
      if isInt whole && isExponent exponent then some .float else none
  | some (whole, rest) =>
    match splitAtLast isExponentMark rest with
    | none => if isInt whole && isFraction rest then some .float else none
    | some (fraction, exponent) =>
      if isInt whole && isFraction fraction && isExponent exponent then some .float else none

/-! ## Strings -/

/-- What follows the opening quote of a string, up to and including the closing quote, and the
rest. A backslash takes the next character with it. There is no line feed in a string. -/
def splitString? : List Char → Option (List Char × List Char)
  | [] => none
  | '\\' :: c :: cs =>
    if c = '\n' then none
    else (splitString? cs).map fun s => ('\\' :: c :: s.1, s.2)
  | c :: cs =>
    if c = '"' then some (['"'], cs)
    else if c = '\n' then none
    else (splitString? cs).map fun s => (c :: s.1, s.2)

/-- What follows the opening quotes of a block string, up to and including the closing ones, and
the rest. Triple quotes behind a backslash close nothing. -/
def splitBlockString? : List Char → Option (List Char × List Char)
  | [] => none
  | '\\' :: '"' :: '"' :: '"' :: cs =>
    (splitBlockString? cs).map fun s => ('\\' :: '"' :: '"' :: '"' :: s.1, s.2)
  | '"' :: '"' :: '"' :: cs => some (['"', '"', '"'], cs)
  | c :: cs => (splitBlockString? cs).map fun s => (c :: s.1, s.2)

/-! ## One token -/

/-- The token that starts with the character `c` in front of `cs`, and the rest. -/
def splitToken? (c : Char) (cs : List Char) : Option (Token × List Char) :=
  if c = '"' then
    match cs with
    | '"' :: '"' :: cs =>
      (splitBlockString? cs).map fun s => (⟨.blockString, '"' :: '"' :: '"' :: s.1⟩, s.2)
    | cs => (splitString? cs).map fun s => (⟨.string, '"' :: s.1⟩, s.2)
  else if c = '.' then
    match cs with
    | '.' :: '.' :: cs => some (⟨.spread, ['.', '.', '.']⟩, cs)
    | _ => none
  else if c = '-' ∨ c.isDigit then
    let number := c :: cs.takeWhile fun c => !endsNumber c
    (numberKind? number).map fun kind => (⟨kind, number⟩, cs.dropWhile fun c => !endsNumber c)
  else if isNameStart c then
    some (⟨.name, c :: cs.takeWhile isNameChar⟩, cs.dropWhile isNameChar)
  else if isMark c then some (⟨.punctuator c, [c]⟩, cs)
  else none

/-! ## A token is the front of the text -/

theorem splitString?_append {cs : List Char} {s : List Char × List Char}
    (h : splitString? cs = some s) : s.1 ++ s.2 = cs := by
  fun_induction splitString? cs generalizing s with
  | case1 => contradiction
  | case2 => contradiction
  | case3 c cs _ ih =>
    obtain ⟨s, hs, rfl⟩ := Option.map_eq_some_iff.mp h
    rw [← ih hs]
    rfl
  | case4 cs =>
    cases h
    rfl
  | case5 => contradiction
  | case6 c cs _ _ _ ih =>
    obtain ⟨s, hs, rfl⟩ := Option.map_eq_some_iff.mp h
    rw [← ih hs]
    rfl

theorem splitBlockString?_append {cs : List Char} {s : List Char × List Char}
    (h : splitBlockString? cs = some s) : s.1 ++ s.2 = cs := by
  fun_induction splitBlockString? cs generalizing s with
  | case1 => contradiction
  | case2 cs ih =>
    obtain ⟨s, hs, rfl⟩ := Option.map_eq_some_iff.mp h
    rw [← ih hs]
    rfl
  | case3 cs =>
    cases h
    rfl
  | case4 c cs _ _ ih =>
    obtain ⟨s, hs, rfl⟩ := Option.map_eq_some_iff.mp h
    rw [← ih hs]
    rfl

theorem splitToken?_append {c : Char} {cs : List Char} {s : Token × List Char}
    (h : splitToken? c cs = some s) : s.1.text ++ s.2 = c :: cs := by
  unfold splitToken? at h
  split at h
  · next hc =>
    subst hc
    split at h
    · obtain ⟨s, hs, rfl⟩ := Option.map_eq_some_iff.mp h
      rw [← splitBlockString?_append hs]
      rfl
    · obtain ⟨s, hs, rfl⟩ := Option.map_eq_some_iff.mp h
      rw [← splitString?_append hs]
      rfl
  split at h
  · next hc =>
    subst hc
    split at h
    · cases h
      rfl
    · contradiction
  split at h
  · obtain ⟨kind, _, rfl⟩ := Option.map_eq_some_iff.mp h
    rw [List.cons_append, List.takeWhile_append_dropWhile]
  split at h
  · cases h
    rw [List.cons_append, List.takeWhile_append_dropWhile]
  split at h
  · cases h
    rfl
  · contradiction

theorem text_ne_nil_of_splitToken? {c : Char} {cs : List Char} {s : Token × List Char}
    (h : splitToken? c cs = some s) : s.1.text ≠ [] := by
  unfold splitToken? at h
  split at h
  · split at h
    all_goals
      obtain ⟨s, _, rfl⟩ := Option.map_eq_some_iff.mp h
      exact List.cons_ne_nil _ _
  split at h
  · split at h
    · cases h
      exact List.cons_ne_nil _ _
    · contradiction
  split at h
  · obtain ⟨kind, _, rfl⟩ := Option.map_eq_some_iff.mp h
    exact List.cons_ne_nil _ _
  split at h
  · cases h
    exact List.cons_ne_nil _ _
  split at h
  · cases h
    exact List.cons_ne_nil _ _
  · contradiction

theorem length_lt_of_splitToken? {c : Char} {cs : List Char} {s : Token × List Char}
    (h : splitToken? c cs = some s) : s.2.length < (c :: cs).length := by
  have hlen := congrArg List.length (splitToken?_append h)
  rw [List.length_append] at hlen
  have hpos := List.length_pos_iff.mpr (text_ne_nil_of_splitToken? h)
  omega

/-! ## Positions -/

/-- A place in a text. Lines and columns count from one. -/
structure Position where
  line : Nat
  column : Nat
deriving DecidableEq, Repr

namespace Position

/-- The place where a text begins. -/
def start : Position := ⟨1, 1⟩

/-- The beginning of the next line. -/
def nextLine (p : Position) : Position := ⟨p.line + 1, 1⟩

/-- The place behind a character without meaning. A tab takes eight columns; a carriage
return and a byte order mark take none. -/
def pastIgnorable (p : Position) (c : Char) : Position :=
  if c = '\n' then p.nextLine
  else if c = '\t' then { p with column := p.column + 8 }
  else if c = ' ' ∨ c = ',' then { p with column := p.column + 1 }
  else p

/-- The place behind a token. Only block strings reach over lines. -/
def pastToken (p : Position) (t : Token) : Position :=
  let lineFeeds := t.text.count '\n'
  if t.kind = .blockString ∧ 0 < lineFeeds then
    ⟨p.line + lineFeeds, 1 + (t.text.reverse.takeWhile (· ≠ '\n')).length⟩
  else { p with column := p.column + t.text.length }

/-- The place as `line:column`. -/
def text (p : Position) : String :=
  String.ofList (Decimal.digits p.line ++ ':' :: Decimal.digits p.column)

end Position

/-! ## Nesting -/

/-- The number of brackets that may be open at once. -/
def maxNesting : Nat := 50

/-- The room for further opening brackets behind a token; none if it has opened one too
many. A closing bracket makes room even if none is open. -/
def roomAfter (room : Nat) : TokenKind → Option Nat
  | .punctuator mark =>
    if mark = '(' ∨ mark = '[' ∨ mark = '{' then if room = 0 then none else some (room - 1)
    else if mark = ')' ∨ mark = ']' ∨ mark = '}' then some (room + 1)
    else some room
  | _ => some room

/-! ## Scanning -/

/-- What has been read from a text: items with their places, and where reading stopped. -/
structure Scan (α : Type) where
  items : List (α × Position)
  /-- The end of the text, or the place of what could not be read. -/
  stop : Position
  /-- Whether all of the text has been read. -/
  complete : Bool

namespace Scan

/-- A scan that has read nothing. -/
def ended (stop : Position) (complete : Bool) : Scan α := ⟨[], stop, complete⟩

/-- A scan with one more item in front. -/
def cons (item : α) (place : Position) (s : Scan α) : Scan α :=
  { s with items := (item, place) :: s.items }

/-- The scan with each item read further; it stops at the first one that cannot be. -/
def mapWhile (f : α → Option β) (s : Scan α) : Scan β := go s.items
where
  /-- The same for some of the items. -/
  go : List (α × Position) → Scan β
    | [] => .ended s.stop s.complete
    | (a, place) :: rest =>
      match f a with
      | some b => (go rest).cons b place
      | none => .ended place false

/-- The place of the item in front of which only this many remain, or the place where
reading stopped if none does. -/
def placeOfLast (s : Scan α) (remaining : Nat) : Position :=
  match s.items.drop (s.items.length - remaining) with
  | (_, place) :: _ => place
  | [] => s.stop

end Scan

/-- A comment ends at the end of its line; that line end is passed with it. -/
def afterComment (p : Position) (cs : List Char) : Position × List Char :=
  match cs.dropWhile fun c => !isLineEnd c with
  | [] => (p, [])
  | _ :: rest => (p.nextLine, rest)

theorem length_afterComment_le (p : Position) (cs : List Char) :
    (afterComment p cs).2.length ≤ cs.length := by
  have hle := (List.dropWhile_suffix (l := cs) fun c => !isLineEnd c).length_le
  unfold afterComment
  split
  · exact Nat.zero_le _
  · next h =>
    rw [h] at hle
    exact Nat.le_of_succ_le hle

/-- The tokens of a text that begins at a place with room for this many opening brackets. -/
def scanFrom (room : Nat) (p : Position) : List Char → Scan Token
  | [] => .ended p true
  | c :: cs =>
    if isIgnorable c then scanFrom room (p.pastIgnorable c) cs
    else if c = '#' then scanFrom room (afterComment p cs).1 (afterComment p cs).2
    else
      match _h : splitToken? c cs with
      | none => .ended p false
      | some (t, rest) =>
        match roomAfter room t.kind with
        | none => .ended p false
        | some room => (scanFrom room (p.pastToken t) rest).cons t p
termination_by cs => cs.length
decreasing_by
  · exact Nat.lt_succ_self _
  · exact Nat.lt_succ_of_le (length_afterComment_le p cs)
  · exact length_lt_of_splitToken? _h

/-- The tokens of a text. -/
def scan (cs : List Char) : Scan Token := scanFrom maxNesting .start cs

end QueryDoc.Grammar
