import QueryDoc.Proofs.Grammar.Joining
import QueryDoc.Proofs.Source.Placing

/-!
# QueryDoc.Proofs.Grammar.ObjectValue

Object values as rows of source tokens: `IsObjectValue` asks for the kinds of tokens that the
grammar derives an object from, and for strings that are closed. Nothing is asked of numbers,
whatever digits they lack.

Every token of a text stays what it is in front of a stop, if it is no string that is still
open (`isSolid_of_mem_tokens`). An object value can therefore be laid out and found again
(`IsObjectValue.isLiteral`), wherever a brace opens an object (`IsObjectValue.isObjectRow`).
-/

namespace QueryDoc

/-! ## Closed strings -/

namespace Source

/-- Whether what follows the opening quote of a string ends with the quote that closes it. -/
def closesString : List Char → Bool
  | [] => false
  | '\\' :: _ :: cs => closesString cs
  | c :: cs => if c = '"' then cs.isEmpty else !isLineEnd c && closesString cs

/-- Whether what follows the opening quotes of a block string ends with those that close it. -/
def closesBlockString : List Char → Bool
  | [] => false
  | '\\' :: '"' :: '"' :: '"' :: cs => closesBlockString cs
  | '"' :: '"' :: '"' :: cs => cs.isEmpty
  | _ :: cs => closesBlockString cs

/-- Whether the text of a string has its closing quotes. -/
def Token.isClosed (t : Token) : Bool :=
  match t.text with
  | '"' :: '"' :: '"' :: cs => closesBlockString cs
  | '"' :: cs => closesString cs
  | _ => false

/-- A string that closes itself is cut off whole, whatever follows it. -/
theorem splitString_of_closes {cs : List Char} (h : closesString cs = true) (rest : List Char) :
    splitString (cs ++ rest) = (cs, rest) := by
  fun_induction closesString cs with
  | case1 => contradiction
  | case2 c cs ih => simp [splitString, ih h]
  | case3 cs hesc =>
    obtain rfl := List.isEmpty_iff.mp h
    simp [splitString]
  | case4 c cs hesc hquote ih =>
    rw [Bool.and_eq_true, Bool.not_eq_true'] at h
    have hback : c ≠ '\\' := by
      rintro rfl
      cases cs with
      | nil => simp [closesString] at h
      | cons x xs => exact hesc x xs rfl rfl
    rw [List.cons_append, splitString]
    · simp [hquote, h.1, ih h.2]
    · intro x xs hx
      exact absurd hx hback

theorem exists_of_closes {cs : List Char} (h : closesBlockString cs = true) :
    ∃ a b c ds, cs = a :: b :: c :: ds := by
  have hlen : 3 ≤ cs.length := by
    fun_induction closesBlockString cs with
    | case1 => contradiction
    | case2 cs ih => simp
    | case3 cs => simp
    | case4 c cs hesc hquotes ih => exact Nat.le_succ_of_le (ih h)
  rcases cs with _ | ⟨a, _ | ⟨b, _ | ⟨c, ds⟩⟩⟩
  · contradiction
  · exact absurd hlen (by simp)
  · exact absurd hlen (by simp)
  · exact ⟨a, b, c, ds, rfl⟩

/-- A block string that closes itself is cut off whole, whatever follows it. -/
theorem splitBlockString_of_closes {cs : List Char} (h : closesBlockString cs = true)
    (rest : List Char) : splitBlockString (cs ++ rest) = (cs, rest) := by
  fun_induction closesBlockString cs with
  | case1 => contradiction
  | case2 cs ih => simp [splitBlockString, ih h]
  | case3 cs =>
    obtain rfl := List.isEmpty_iff.mp h
    simp [splitBlockString]
  | case4 c cs hesc hquotes ih =>
    have hrest := ih h
    obtain ⟨a, b, d, ds, rfl⟩ := exists_of_closes h
    rw [List.cons_append, splitBlockString, hrest]
    · intro x hc hx
      simp only [List.cons_append, List.cons.injEq] at hx
      exact hesc ds hc (by rw [hx.1, hx.2.1, hx.2.2.1])
    · intro x hc hx
      simp only [List.cons_append, List.cons.injEq] at hx
      exact hquotes (d :: ds) hc (by rw [hx.1, hx.2.1])

/-! ## Numbers -/

/-- A number that is one for the lenient cut is regular, since its parts were cut one by one. -/
theorem Lexeme.EndsBefore.exists_number {t : Token} {rest : List Char}
    (h : (Lexeme.token t).EndsBefore rest) (hk : t.kind = .int ∨ t.kind = .float) :
    ∃ n : NumberText, n.IsRegular ∧ t = ⟨n.kind, n.text⟩ := by
  cases h.form with
  | @number n _ _ hsplit =>
    have hregular := isRegular_splitNumber (n.text ++ rest)
    rw [hsplit] at hregular
    exact ⟨n, hregular, rfl⟩
  | _ => simp at hk

end Source

namespace Grammar

open Source (Lexeme tokens opensObject piecesFrom Balanced IsObjectRow IsHeldRow AlikeBehind
  nestingBehind lastOf)

/-! ## Tokens of a text -/

/-- A number stays one token in front of every stop. -/
theorem isSolid_number {t : Source.Token} {rest : List Char}
    (h : (Lexeme.token t).EndsBefore rest) (hk : t.kind = .int ∨ t.kind = .float) : IsSolid t where
  known := by obtain hk | hk := hk <;> simp [hk]
  endsBefore rest' hr := by
    have hstart : ∃ c ∈ t.text.head?, c = '-' ∨ c.isDigit = true := by
      have hform := h.hasForm
      obtain hk | hk := hk <;> simpa only [Source.Token.HasForm, hk] using hform
    obtain ⟨n, hn, rfl⟩ := h.exists_number hk
    refine endsBefore_number hn hstart (hr ?_)
    obtain hk | hk := hk <;> rw [hk] <;> rfl

/-- A string that closes itself stays one token, whatever follows it. -/
theorem isSolid_closed {t : Source.Token} (hk : t.kind = .string) (h : t.isClosed = true) :
    IsSolid t where
  known := by simp [hk]
  endsBefore rest hr := by
    have hstops := hr (by rw [hk]; rfl)
    obtain ⟨kind, text⟩ := t
    obtain rfl : kind = .string := hk
    unfold Source.Token.isClosed at h
    split at h
    · next cs htext =>
      obtain rfl : text = _ := htext
      exact (Lexeme.Form.blockString (Source.splitBlockString_of_closes h rest)).endsBefore
    · next cs hblock htext =>
      obtain rfl : text = _ := htext
      have hquotes : ¬ ['"', '"'] <+: cs := by
        rintro ⟨x, rfl⟩
        exact hblock x rfl
      have hne : cs ≠ [] := by
        rintro rfl
        contradiction
      exact (Lexeme.Form.string (hstops.not_quotes hne hquotes)
        (Source.splitString_of_closes h rest)).endsBefore
    · contradiction

/-- What the strict cut takes for a string is closed, for the lenient cut unless a bare carriage
return stands in it. -/
theorem closesString_of_splitString? {cs : List Char} {s : List Char × List Char}
    (h : splitString? cs = some s) (hfree : hasBareReturn s.1 = false) :
    Source.closesString s.1 = true := by
  fun_induction splitString? cs generalizing s with
  | case1 => contradiction
  | case2 => contradiction
  | case3 c cs hc ih =>
    obtain ⟨s, hs, rfl⟩ := Option.map_eq_some_iff.mp h
    rw [hasBareReturn] at hfree
    rw [Source.closesString, ih hs hfree]
  | case4 cs =>
    cases h
    rfl
  | case5 => contradiction
  | case6 c cs hesc hquote hline ih =>
    obtain ⟨s, hs, rfl⟩ := Option.map_eq_some_iff.mp h
    have hback : c ≠ '\\' := by
      rintro rfl
      cases cs with
      | nil => contradiction
      | cons x xs => exact hesc x xs rfl rfl
    rw [hasBareReturn_of_ne hback, Bool.or_eq_false_iff, beq_eq_false_iff_ne] at hfree
    rw [Source.closesString]
    · simp [isLineEnd, hquote, hline, hfree.1, ih hs hfree.2]
    · intro x xs hx
      exact absurd hx hback

theorem closesBlockString_of_splitBlockString? {cs : List Char} {s : List Char × List Char}
    (h : splitBlockString? cs = some s) : Source.closesBlockString s.1 = true := by
  fun_induction splitBlockString? cs generalizing s with
  | case1 => contradiction
  | case2 cs ih =>
    obtain ⟨s, hs, rfl⟩ := Option.map_eq_some_iff.mp h
    rw [Source.closesBlockString, ih hs]
  | case3 cs =>
    cases h
    rfl
  | case4 c cs hesc hquotes ih =>
    obtain ⟨s, hs, rfl⟩ := Option.map_eq_some_iff.mp h
    have happ := splitBlockString?_append hs
    rw [Source.closesBlockString, ih hs]
    · intro x hc hx
      exact hesc (x ++ s.2) hc (by rw [← happ, hx]; rfl)
    · intro x hc hx
      exact hquotes (x ++ s.2) hc (by rw [← happ, hx]; rfl)

/-- A string of the grammar is closed, if no bare carriage return stands in it. -/
theorem Token.Form.isClosed {t : Token} {rest : List Char} (h : t.Form rest)
    (hk : t.toSource.kind = .string) (hfree : ¬ t.HasBareReturn) : t.toSource.isClosed = true := by
  cases h with
  | blockString h => exact closesBlockString_of_splitBlockString? h
  | @string body _ hquotes h =>
    have hbody : hasBareReturn body = false := by
      simpa [Token.HasBareReturn] using hfree
    have hclosed := closesString_of_splitString? h hbody
    simp only [Source.Token.isClosed, Token.toSource]
    split
    · next cs heq =>
      obtain rfl := (List.cons.inj heq).2
      exact absurd ⟨cs ++ rest, rfl⟩ hquotes
    · next cs _ heq =>
      obtain rfl := (List.cons.inj heq).2
      exact hclosed
    · next hno => exact absurd rfl (hno body)
  | number _ hkind =>
    obtain rfl | rfl := eq_of_numberKind? hkind <;> contradiction
  | _ => contradiction

/-- A token of a text is found in front of every stop, if it is no string that is still open. -/
theorem isSolid_of_mem_tokens {cs : List Char} {t : Source.Token} (h : t ∈ tokens cs)
    (hk : t.kind ≠ .unknown) (hs : t.kind = .string → t.isClosed = true) : IsSolid t := by
  obtain ⟨rest, hends⟩ := Source.endsBefore_of_mem_tokens h
  have hform := hends.hasForm
  obtain ⟨kind, text⟩ := t
  cases kind with
  | float => exact isSolid_number hends (.inr rfl)
  | int => exact isSolid_number hends (.inl rfl)
  | name =>
    have hname : isName text = true := hform
    have hsolid : IsSolid (Terminal.name (String.ofList text)).token :=
      isSolid_token (by simpa [Terminal.IsPlain] using hname)
    simpa [Terminal.token, Terminal.kind, Terminal.spelling] using hsolid
  | punctuator mark =>
    obtain ⟨hmark, rfl⟩ : isMark mark = true ∧ text = [mark] := hform
    exact isSolid_token (u := .mark mark) hmark
  | spread =>
    obtain rfl : text = ['.', '.', '.'] := hform
    exact isSolid_token (u := .spread) trivial
  | string => exact isSolid_closed rfl (hs rfl)
  | unknown => contradiction

/-! ## Brackets of values and types -/

section Balanced

variable {us vs : List Terminal}

/-- A row of terminals in which every bracket is closed. -/
abbrev IsBalanced (us : List Terminal) : Prop := Balanced (us.map Terminal.kind)

/-- Balanced rows may follow each other. -/
theorem isBalanced_append (h : IsBalanced us) (h' : IsBalanced vs) : IsBalanced (us ++ vs) := by
  rw [IsBalanced, List.map_append]
  exact Balanced.append h h'

theorem isBalanced_flatMap {f : α → List Terminal} {as : List α}
    (h : ∀ a ∈ as, IsBalanced (f a)) : IsBalanced (as.flatMap f) := by
  induction as with
  | nil => exact .nil
  | cons a as ih =>
    obtain ⟨ha, has⟩ := List.forall_mem_cons.mp h
    exact isBalanced_append ha (ih has)

/-- A terminal that is no bracket is balanced. -/
theorem isBalanced_one {u : Terminal} (h : ∀ nesting p, nestingBehind nesting p u.kind = nesting) :
    IsBalanced [u] := .cons h .nil

/-- A row between brackets. -/
theorem isBalanced_wrap {o c : Char}
    (h : (o = '(' ∧ c = ')') ∨ (o = '[' ∧ c = ']') ∨ (o = '\x7b' ∧ c = '\x7d'))
    (hus : IsBalanced us) : IsBalanced (.mark o :: (us ++ [.mark c])) := by
  have hopens : ∀ nesting p, ∃ b, nestingBehind nesting p (.punctuator o) = b :: nesting := by
    obtain ⟨rfl, rfl⟩ | ⟨rfl, rfl⟩ | ⟨rfl, rfl⟩ := h
    · exact fun _ _ => ⟨_, rfl⟩
    · exact fun _ _ => ⟨_, rfl⟩
    · intro nesting p
      by_cases ho : opensObject nesting p = true
      · exact ⟨.object, by simp [nestingBehind, Source.roleOf, ho]⟩
      · exact ⟨.block, by simp [nestingBehind, Source.roleOf, ho]⟩
  have hcloses : ∀ nesting p, nestingBehind nesting p (.punctuator c) = nesting.tail := by
    obtain ⟨rfl, rfl⟩ | ⟨rfl, rfl⟩ | ⟨rfl, rfl⟩ := h
    · exact fun _ _ => rfl
    · exact fun _ _ => rfl
    · intro nesting p
      cases nesting with
      | nil => rfl
      | cons b outer => cases b <;> rfl
  have hall := Balanced.wrap hopens hcloses hus .nil
  simpa [IsBalanced, Terminal.kind] using hall

mutual

/-- Every bracket that a value opens is closed within it. -/
theorem isBalanced_value (v : Value) : IsBalanced v.terminals := by
  cases v with
  | name s => exact isBalanced_one fun _ _ => rfl
  | int n => exact isBalanced_one fun _ _ => rfl
  | float x => exact isBalanced_one fun _ _ => rfl
  | string s => exact isBalanced_one fun _ _ => rfl
  | reference s =>
    exact .cons (fun _ _ => rfl) (isBalanced_one fun _ _ => rfl)
  | list items => exact isBalanced_wrap (.inr (.inl ⟨rfl, rfl⟩)) (isBalanced_items items)
  | object fields => exact isBalanced_wrap (.inr (.inr ⟨rfl, rfl⟩)) (isBalanced_fields fields)

theorem isBalanced_items (vs : List Value) : IsBalanced (itemTerminals vs) := by
  cases vs with
  | nil => exact .nil
  | cons v vs => exact isBalanced_append (isBalanced_value v) (isBalanced_items vs)

theorem isBalanced_fields (fs : List (String × Value)) : IsBalanced (fieldTerminals fs) := by
  cases fs with
  | nil => exact .nil
  | cons f fs =>
    obtain ⟨key, v⟩ := f
    exact .cons (fun _ _ => rfl) (.cons (fun _ _ => rfl)
      (isBalanced_append (isBalanced_value v) (isBalanced_fields fs)))

end

/-- Every bracket in a type is closed within it. -/
theorem isBalanced_typeRef (type : TypeRef) : IsBalanced (slotTerminals type.slots) := by
  have hrequired (required : Bool) : IsBalanced (slotTerminals (requiredSlots required)) := by
    cases required with
    | false => exact .nil
    | true => exact isBalanced_one fun _ _ => rfl
  induction type with
  | named s required => exact .cons (fun _ _ => rfl) (hrequired required)
  | list item required ih =>
    have hall := isBalanced_append (isBalanced_wrap (.inr (.inl ⟨rfl, rfl⟩)) ih)
      (hrequired required)
    simpa [TypeRef.slots] using hall

/-- Every bracket in a variable is closed within it. -/
theorem isBalanced_variable (v : VariableDefinition) : IsBalanced (slotTerminals v.slots) := by
  have hinitial : IsBalanced (slotTerminals (initialSlots v.initial)) := by
    cases v.initial with
    | none => exact .nil
    | some value =>
      rw [initialSlots, slotTerminals_mark, slotTerminals_value, slotTerminals_nil, List.append_nil]
      exact .cons (fun _ _ => rfl) (isBalanced_value value)
  have hall := isBalanced_append (isBalanced_typeRef v.type) hinitial
  rw [VariableDefinition.slots, slotTerminals_mark, slotTerminals_word, slotTerminals_mark,
    slotTerminals_append]
  exact .cons (fun _ _ => rfl) (.cons (fun _ _ => rfl) (.cons (fun _ _ => rfl) hall))

theorem isBalanced_variables (vs : List VariableDefinition) :
    IsBalanced (slotTerminals (variablesSlots vs)) := by
  cases vs with
  | nil => exact .nil
  | cons v vs =>
    have hne : (v :: vs).flatMap VariableDefinition.slots ≠ [] := by simp [VariableDefinition.slots]
    have hall : IsBalanced (slotTerminals ((v :: vs).flatMap VariableDefinition.slots)) := by
      rw [slotTerminals, List.flatMap_assoc]
      exact isBalanced_flatMap fun w _ => isBalanced_variable w
    rw [variablesSlots, bracketed_of_ne_nil hne, slotTerminals_mark, slotTerminals_append,
      slotTerminals_mark]
    exact isBalanced_wrap (.inl ⟨rfl, rfl⟩) hall

end Balanced

/-! ## Object values -/

theorem forall₂_kind_iff {run : List Source.Token} {us : List Terminal} :
    List.Forall₂ (fun t u => Source.Token.kind t = Terminal.kind u) run us ↔
      run.map Source.Token.kind = us.map Terminal.kind := by
  rw [← List.forall₂_eq_eq_eq, List.forall₂_map_left_iff, List.forall₂_map_right_iff]

/-- A row of tokens that makes up an object value: the grammar derives an object from tokens of
these kinds, and all strings are closed. -/
structure IsObjectValue (run : List Source.Token) : Prop where
  derives : ∃ fields, List.Forall₂ (fun t u => Source.Token.kind t = Terminal.kind u) run
    (Value.object fields).terminals
  closed : ∀ t ∈ run, t.kind = .string → t.isClosed = true

/-- An object value, or a float. -/
def IsLiteralValue (run : List Source.Token) : Prop :=
  IsObjectValue run ∨ ∃ t, run = [t] ∧ t.kind = .float

/-- The row of an object opens with its brace and comes back to it only at the end. -/
theorem isObjectRow_object (fields : List (String × Value)) :
    IsObjectRow ((Value.object fields).terminals.map Terminal.kind) where
  balanced := isBalanced_value (.object fields)
  head := rfl
  held nesting p hn ho := by
    obtain ⟨last, -, hpieces⟩ := piecesFrom_value (.object fields) hn ho
    have hown := hpieces []
    have hrel : List.Forall₂ (fun u k => Terminal.kind u = k) (Value.object fields).terminals
        ((Value.object fields).terminals.map Terminal.kind) :=
      List.forall₂_map_right_iff.mpr (List.forall₂_same.mpr fun _ _ => rfl)
    have hkind : ∀ u k, Terminal.kind u = k → Terminal.kind u = id k := fun _ _ h => h
    have hrow := Source.forall₂_piecesFrom hkind nesting p hrel .none
    have hall := Source.flatMap_all_piecesFrom id nesting p none
      ((Value.object fields).terminals.map Terminal.kind)
    rw [List.append_nil] at hown
    rw [hown] at hrow
    generalize piecesFrom id nesting p none _ = ps at hrow hall
    cases hrow with
    | cons hpiece hnil =>
      cases hnil
      cases hpiece
      simpa [Source.Piece.all] using hall
  last p := by
    rw [Value.terminals, List.map_cons, List.map_append, lastOf, Source.lastOf_append]
    rfl

namespace IsObjectValue

variable {run : List Source.Token} (h : IsObjectValue run)
include h

/-- An object value has the kinds of a row, so that its run ends with its own brace. -/
theorem isObjectRow : IsObjectRow (run.map Source.Token.kind) := by
  obtain ⟨fields, hkinds⟩ := h.derives
  exact forall₂_kind_iff.mp hkinds ▸ isObjectRow_object fields

/-- An object value in a text is a literal: it can be cut out and put back. -/
theorem isLiteral {cs : List Char} (hrun : ∀ t ∈ run, t ∈ tokens cs) : IsLiteral run := by
  obtain ⟨fields, hkinds⟩ := h.derives
  refine isLiteral_of_isHeld (.inr ⟨fields, rfl⟩) hkinds fun t ht => ?_
  refine isSolid_of_mem_tokens (hrun t ht) ?_ (h.closed t ht)
  obtain ⟨u, -, htu⟩ := Source.exists_mem_of_forall₂ hkinds.flip ht
  rw [htu]
  cases u <;> simp [Terminal.kind]

end IsObjectValue

namespace IsLiteralValue

variable {run : List Source.Token} (h : IsLiteralValue run)
include h

theorem isHeldRow : IsHeldRow Source.Token.kind run := h.imp_left IsObjectValue.isObjectRow

theorem isLiteral {cs : List Char} (hrun : ∀ t ∈ run, t ∈ tokens cs) : IsLiteral run := by
  obtain h | ⟨t, rfl, ht⟩ := h
  · exact h.isLiteral hrun
  · refine isLiteral_of_isHeld (v := .float ⟨0⟩) (.inl ⟨_, rfl⟩) (.cons ht .nil) ?_
    refine List.forall_mem_singleton.mpr (isSolid_of_mem_tokens (hrun t List.mem_cons_self) ?_ ?_)
    · simp [ht]
    · simp [ht]

end IsLiteralValue

end Grammar

end QueryDoc
