import QueryDoc.Proofs.Grammar.Form
import QueryDoc.Proofs.Grammar.Number
import QueryDoc.Proofs.Source.Places

/-!
# QueryDoc.Proofs.Grammar.Agreement

Two ways to cut a text into tokens: the strict one of the grammar (`scan`), which stops at
what is no token, and the lenient one that looks for literals (`Source.lexemes`).

The strict one takes a carriage return into a string between quotes, the lenient one ends
the string there. `placedTokens_eq_iff` says that this is the only difference: where the
strict cut goes through, the lenient one has the same tokens at the same bytes exactly if
no string has a bare carriage return in it, one without a backslash in front.
-/

namespace QueryDoc.Grammar

/-! ## Tokens as source tokens -/

/-- The kind that a token has in source text, where both forms of string are one. -/
def TokenKind.toSource : TokenKind → Source.TokenKind
  | punctuator mark => .punctuator mark
  | spread => .spread
  | name => .name
  | int => .int
  | float => .float
  | string => .string
  | blockString => .string

def Token.toSource (t : Token) : Source.Token := ⟨t.kind.toSource, t.text⟩

/-! ## Strings -/

/-- Whether a carriage return stands in the text of a string without a backslash in front. -/
def hasBareReturn : List Char → Bool
  | [] => false
  | '\\' :: _ :: cs => hasBareReturn cs
  | c :: cs => c == '\r' || hasBareReturn cs

/-- A string between quotes with a bare carriage return in it. -/
def Token.HasBareReturn (t : Token) : Prop := t.kind = .string ∧ hasBareReturn t.text.tail = true

theorem hasBareReturn_of_ne {c : Char} (hc : c ≠ '\\') (cs : List Char) :
    hasBareReturn (c :: cs) = (c == '\r' || hasBareReturn cs) := by
  rw [hasBareReturn]
  intro x xs hx
  exact absurd hx hc

/-- The lenient cut of a string is the strict one exactly if it has no bare carriage return. -/
theorem splitString_eq_iff {cs : List Char} {s : List Char × List Char}
    (h : splitString? cs = some s) :
    Source.splitString cs = s ↔ hasBareReturn s.1 = false := by
  fun_induction splitString? cs generalizing s with
  | case1 => contradiction
  | case2 => contradiction
  | case3 c cs hc ih =>
    obtain ⟨s, hs, rfl⟩ := Option.map_eq_some_iff.mp h
    rw [Source.splitString, hasBareReturn, ← ih hs]
    simp [Prod.ext_iff]
  | case4 cs =>
    cases h
    simp [Source.splitString_of_ne, hasBareReturn_of_ne, hasBareReturn]
  | case5 => contradiction
  | case6 c cs hesc hquote hline ih =>
    obtain ⟨s, hs, rfl⟩ := Option.map_eq_some_iff.mp h
    have hback : c ≠ '\\' := by
      rintro rfl
      cases cs with
      | nil => contradiction
      | cons x xs => exact hesc x xs rfl rfl
    rw [Source.splitString_of_ne hback, hasBareReturn_of_ne hback, if_neg hquote]
    by_cases hr : c = '\r'
    · subst hr
      simp [isLineEnd]
    · have hend : isLineEnd c = false := by simp [isLineEnd, hline, hr]
      rw [hend, ← Bool.not_eq_true, if_neg Bool.false_ne_true]
      simp [hr, ← ih hs, Prod.ext_iff]

theorem splitBlockString_eq {cs : List Char} {s : List Char × List Char}
    (h : splitBlockString? cs = some s) : Source.splitBlockString cs = s := by
  fun_induction splitBlockString? cs generalizing s with
  | case1 => contradiction
  | case2 cs ih =>
    obtain ⟨s, hs, rfl⟩ := Option.map_eq_some_iff.mp h
    rw [Source.splitBlockString, ih hs]
  | case3 cs =>
    cases h
    rw [Source.splitBlockString]
  | case4 c cs hesc hquotes ih =>
    obtain ⟨s, hs, rfl⟩ := Option.map_eq_some_iff.mp h
    rw [Source.splitBlockString, ih hs]
    · exact hesc
    · exact hquotes

/-! ## One token -/

theorem isQuiet_of_endsNumber {c : Char} (h : endsNumber c = true) : Source.isQuiet c = true :=
  of_endsNumber (by decide) h

/-- A number of the grammar is cut off as a whole. -/
theorem splitNumber_of_numberKind? {text rest : List Char} {kind : TokenKind}
    (hstart : ∃ c ∈ text.head?, c = '-' ∨ c.isDigit = true) (h : numberKind? text = some kind)
    (hr : ∀ c ∈ rest.head?, endsNumber c = true) :
    ∃ n, Source.splitNumber (text ++ rest) = (n, rest) ∧ n.text = text ∧
      n.kind = kind.toSource := by
  obtain ⟨n, rfl, hparts, rfl⟩ := exists_parts_of_numberKind? hstart h
  refine ⟨n, hparts.isRegular.splitNumber_append fun c hc => isQuiet_of_endsNumber (hr c hc), rfl,
    ?_⟩
  unfold Source.NumberText.kind NumberParts.kindOf
  split <;> rfl

/-- A token of the grammar is one of the lenient cut in front of the same text, exactly if it is
no string with a bare carriage return. -/
theorem Token.Form.endsBefore_toSource_iff {t : Token} {rest : List Char} (h : t.Form rest) :
    (Source.Lexeme.token t.toSource).EndsBefore rest ↔ ¬ t.HasBareReturn := by
  have plain {t : Token} (hends : (Source.Lexeme.token t.toSource).EndsBefore rest)
      (ht : t.kind ≠ .string) :
      (Source.Lexeme.token t.toSource).EndsBefore rest ↔ ¬ t.HasBareReturn :=
    iff_of_true hends fun hb => ht hb.1
  cases h with
  | blockString h =>
    have hsplit := splitBlockString_eq (splitBlockString?_front h rest)
    exact plain (Source.Lexeme.Form.blockString hsplit).endsBefore (by simp)
  | @string body _ hquotes h =>
    have hiff := splitString_eq_iff (splitString?_front h rest)
    simp only [Prod.ext_iff] at hiff
    refine (Source.endsBefore_iff_splitLexeme (show _ = '"' :: (body ++ rest) from rfl)).trans ?_
    rw [Source.splitLexeme_string hquotes]
    simp [Token.toSource, TokenKind.toSource, Token.HasBareReturn, hiff]
  | spread => exact plain Source.Lexeme.Form.spread.endsBefore (by simp)
  | number hstart hkind hin hend =>
    obtain ⟨n, hn, rfl, hk⟩ := splitNumber_of_numberKind? hstart hkind hend
    have hends := (Source.Lexeme.Form.number hstart hn).endsBefore
    rw [hk] at hends
    refine plain hends ?_
    obtain rfl | rfl := eq_of_numberKind? hkind <;> simp
  | name hname hend => exact plain (Source.Lexeme.Form.name hname hend).endsBefore (by simp)
  | mark hc => exact plain (Source.Lexeme.Form.mark hc).endsBefore (by simp)

/-- The token that the strict cut finds is the one that the lenient cut finds, exactly if it
is no string with a bare carriage return. -/
theorem splitLexeme_eq_iff {c : Char} {cs rest : List Char} {t : Token}
    (h : splitToken? c cs = some (t, rest)) :
    Source.splitLexeme c cs = (.token t.toSource, rest) ↔ ¬ t.HasBareReturn := by
  rw [← (form_of_splitToken? h).endsBefore_toSource_iff]
  exact (Source.endsBefore_iff_splitLexeme (splitToken?_append h)).symm

/-! ## Places in the text -/

/-- A token with the bytes of the text that it covers: from `start` up to, but without,
`stop`. -/
structure PlacedToken where
  token : Token
  start : Nat
  stop : Nat

def PlacedToken.toSource (p : PlacedToken) : Source.PlacedToken :=
  ⟨p.token.toSource, p.start, p.stop⟩

/-- The tokens of a text that starts at the given byte, with room for any number of
brackets; none if something in the text is no token. -/
def placeTokens? (start : Nat) : List Char → Option (List PlacedToken)
  | [] => some []
  | c :: cs =>
    if isIgnorable c then placeTokens? (start + byteSize [c]) cs
    else if c = '#' then
      placeTokens? (start + byteSize ('#' :: (Source.splitComment cs).1)) (Source.splitComment cs).2
    else
      match _h : splitToken? c cs with
      | none => none
      | some (t, rest) =>
        (placeTokens? (start + byteSize t.text) rest).map
          (⟨t, start, start + byteSize t.text⟩ :: ·)
termination_by cs => cs.length
decreasing_by
  · exact Nat.lt_succ_self _
  · exact Nat.lt_succ_of_le (List.dropWhile_suffix _).length_le
  · exact length_lt_of_splitToken? _h

/-- The line end that ends a comment carries no meaning. -/
theorem afterComment_eq (p : Position) (cs : List Char) :
    (Source.splitComment cs).2 = (afterComment p cs).2 ∨
      ∃ c, isIgnorable c = true ∧ (Source.splitComment cs).2 = c :: (afterComment p cs).2 := by
  have hhead := Source.head_dropWhile (p := fun c => !isLineEnd c) cs
  unfold Source.splitComment afterComment
  split
  · next h => exact Or.inl h
  · next c rest h =>
    rw [h] at hhead
    have hc : isLineEnd c = true := by simpa using hhead c rfl
    refine Or.inr ⟨c, ?_, h⟩
    simp only [isLineEnd, Bool.or_eq_true, beq_iff_eq] at hc
    obtain rfl | rfl := hc <;> rfl

theorem exists_afterComment (start : Nat) (p : Position) (cs : List Char) :
    ∃ next, placeTokens? start ('#' :: cs) = placeTokens? next (afterComment p cs).2 := by
  have hcomment : placeTokens? start ('#' :: cs) =
      placeTokens? (start + byteSize ('#' :: (Source.splitComment cs).1))
        (Source.splitComment cs).2 := by
    rw [placeTokens?, if_neg (by decide), if_pos rfl]
  obtain h | ⟨c, hc, h⟩ := afterComment_eq p cs
  · exact ⟨_, by rw [hcomment, h]⟩
  · exact ⟨_, by rw [hcomment, h, placeTokens?, if_pos hc]⟩

theorem placeTokens?_token {c : Char} {cs rest : List Char} {t : Token}
    (hi : isIgnorable c = false) (hc : c ≠ '#') (h : splitToken? c cs = some (t, rest))
    (start : Nat) :
    placeTokens? start (c :: cs) = (placeTokens? (start + byteSize t.text) rest).map
      (⟨t, start, start + byteSize t.text⟩ :: ·) := by
  rw [placeTokens?, if_neg (by simp [hi]), if_neg hc]
  split
  · next hn =>
    rw [h] at hn
    contradiction
  · next hs =>
    rw [h] at hs
    cases hs
    rfl

/-- A token is the part of the text that its bytes cover. -/
theorem text_of_mem_placeTokens? {start : Nat} {cs : List Char} {placed : List PlacedToken}
    (h : placeTokens? start cs = some placed) {p : PlacedToken} (hp : p ∈ placed) :
    ∃ front back, cs = front ++ p.token.text ++ back ∧ p.start = start + byteSize front ∧
      p.stop = p.start + byteSize p.token.text := by
  fun_induction placeTokens? start cs generalizing placed with
  | case1 start =>
    cases h
    contradiction
  | case2 start c cs hi ih =>
    obtain ⟨front, back, rfl, hstart, hstop⟩ := ih h hp
    refine ⟨[c] ++ front, back, rfl, ?_, hstop⟩
    rw [hstart, byteSize_append]
    omega
  | case3 start cs hi ih =>
    obtain ⟨front, back, hback, hstart, hstop⟩ := ih h hp
    refine ⟨'#' :: (Source.splitComment cs).1 ++ front, back, ?_, ?_, hstop⟩
    · rw [List.cons_append, List.cons_append, List.cons_append, List.append_assoc,
        List.append_assoc, ← List.append_assoc front, ← hback, Source.splitComment_append]
    · rw [hstart, byteSize_append]
      omega
  | case4 => contradiction
  | case5 start c cs hi hc t rest hs ih =>
    obtain ⟨placed, hplaced, rfl⟩ := Option.map_eq_some_iff.mp h
    have happ := splitToken?_append hs
    cases hp with
    | head => exact ⟨[], rest, by simpa using happ.symm, rfl, rfl⟩
    | tail _ hp =>
      obtain ⟨front, back, hback, hstart, hstop⟩ := ih hplaced hp
      refine ⟨t.text ++ front, back, ?_, ?_, hstop⟩
      · rw [← happ, hback]
        simp
      · rw [hstart, byteSize_append]
        omega

/-- What the grammar reads from a whole text, with whatever room for brackets, are the tokens
of the text. -/
theorem exists_placed_of_complete {room : Nat} {p : Position} {cs : List Char}
    (h : (scanFrom room p cs).complete = true) (start : Nat) :
    ∃ placed, placeTokens? start cs = some placed ∧
      placed.map PlacedToken.token = (scanFrom room p cs).items.map Prod.fst := by
  fun_induction scanFrom room p cs generalizing start with
  | case1 room p => exact ⟨[], by rw [placeTokens?], rfl⟩
  | case2 room p c cs hi ih =>
    obtain ⟨placed, hplaced, hitems⟩ := ih h (start + byteSize [c])
    exact ⟨placed, by rw [placeTokens?, if_pos hi, hplaced], hitems⟩
  | case3 room p cs hi ih =>
    obtain ⟨next, hnext⟩ := exists_afterComment start p cs
    obtain ⟨placed, hplaced, hitems⟩ := ih h next
    exact ⟨placed, by rw [hnext, hplaced], hitems⟩
  | case4 => contradiction
  | case5 => contradiction
  | case6 room p c cs hi hc t rest hs left hroom ih =>
    obtain ⟨placed, hplaced, hitems⟩ := ih h (start + byteSize t.text)
    refine ⟨⟨t, start, start + byteSize t.text⟩ :: placed, ?_, ?_⟩
    · rw [placeTokens?_token (by simpa using hi) hc hs, hplaced]
      rfl
    · simp [Scan.cons, hitems]

/-- Where there is room for as many brackets as there are characters, a text of tokens is read
as a whole. -/
theorem complete_of_placed {room : Nat} {cs : List Char} {placed : List PlacedToken}
    {start : Nat} (h : placeTokens? start cs = some placed) (hroom : cs.length ≤ room)
    (p : Position) : (scanFrom room p cs).complete = true := by
  fun_induction scanFrom room p cs generalizing start placed with
  | case1 => rfl
  | case2 room p c cs hi ih =>
    rw [placeTokens?, if_pos hi] at h
    exact ih h (Nat.le_of_succ_le hroom)
  | case3 room p cs hi ih =>
    obtain ⟨next, hnext⟩ := exists_afterComment start p cs
    rw [hnext] at h
    exact ih h ((length_afterComment_le p cs).trans (Nat.le_of_succ_le hroom))
  | case4 room p c cs hi hc hs =>
    rw [placeTokens?, if_neg hi, if_neg hc] at h
    split at h
    · contradiction
    · next hs' =>
      rw [hs] at hs'
      contradiction
  | case5 room p c cs hi hc t rest hs hnone =>
    -- A bracket finds no room only where there is none, but there is room for one character.
    unfold roomAfter at hnone
    split at hnone
    · split at hnone
      · split at hnone
        · next hzero =>
          rw [hzero] at hroom
          contradiction
        · contradiction
      · split at hnone <;> contradiction
    · contradiction
  | case6 room p c cs hi hc t rest hs left hroom' ih =>
    rw [placeTokens?_token (by simpa using hi) hc hs] at h
    obtain ⟨placed, hplaced, -⟩ := Option.map_eq_some_iff.mp h
    have hlen := length_lt_of_splitToken? hs
    -- A token takes up room for one bracket at most, and at least one character of the text.
    have hleft : room ≤ left + 1 := by
      unfold roomAfter at hroom'
      split at hroom'
      · split at hroom'
        · split at hroom'
          · contradiction
          · cases hroom'
            omega
        · split at hroom' <;> (cases hroom'; omega)
      · cases hroom'
        omega
    exact ih hplaced (by simp only [List.length_cons] at *; omega)

/-! ## The whole text -/

theorem exists_token_of_splitLexeme {c : Char} (hi : isIgnorable c = false) (hc : c ≠ '#')
    (cs : List Char) : ∃ t, (Source.splitLexeme c cs).1 = .token t := by
  have hform := Source.form_splitLexeme c cs
  have happ := Source.splitLexeme_append c cs
  generalize (Source.splitLexeme c cs).1 = l at *
  generalize (Source.splitLexeme c cs).2 = rest at *
  cases hform with
  | blank hblank =>
    rw [(List.cons.inj happ).1, hi] at hblank
    contradiction
  | comment => exact absurd (List.cons.inj happ).1.symm hc
  | _ => exact ⟨_, rfl⟩

/-- The lenient cut finds the tokens of a text at the bytes where they are, exactly if none of
them is a string with a bare carriage return. -/
theorem placeTokens_lexemes_iff {start : Nat} {cs : List Char} {placed : List PlacedToken}
    (h : placeTokens? start cs = some placed) :
    Source.placeTokens start (Source.lexemes cs) = placed.map PlacedToken.toSource ↔
      ∀ p ∈ placed, ¬ p.token.HasBareReturn := by
  fun_induction placeTokens? start cs generalizing placed with
  | case1 start =>
    cases h
    simp [Source.lexemes, Source.placeTokens]
  | case2 start c cs hi ih =>
    rw [Source.lexemes, Source.splitLexeme_blank hi]
    exact ih h
  | case3 start cs hi ih =>
    rw [Source.lexemes, Source.splitLexeme_hash]
    exact ih h
  | case4 => contradiction
  | case5 start c cs hi hc t rest hs ih =>
    obtain ⟨placed, hplaced, rfl⟩ := Option.map_eq_some_iff.mp h
    have hi : isIgnorable c = false := by simpa using hi
    have hiff := splitLexeme_eq_iff hs
    rw [List.forall_mem_cons, ← hiff, ← ih hplaced, Source.lexemes]
    constructor
    · intro he
      obtain ⟨t', ht'⟩ := exists_token_of_splitLexeme hi hc cs
      have happ := Source.splitLexeme_append c cs
      simp only [ht', Source.placeTokens, List.map_cons, List.cons.injEq] at he
      have hhead : t' = t.toSource := congrArg Source.PlacedToken.token he.1
      subst hhead
      -- The same token leaves the same rest, as both are cut off the same text.
      have hrest : (Source.splitLexeme c cs).2 = rest := by
        rw [ht', ← splitToken?_append hs] at happ
        exact List.append_cancel_left happ
      rw [hrest] at he
      exact ⟨Prod.ext ht' hrest, he.2⟩
    · rintro ⟨he, hrest⟩
      rw [he]
      simp only [Source.placeTokens, List.map_cons]
      exact congrArg _ hrest

/-- Without bare carriage returns both cuts find the same tokens. -/
theorem tokens_eq_of_complete {room : Nat} {p : Position} {cs : List Char}
    (h : (scanFrom room p cs).complete = true)
    (hr : ∀ t ∈ (scanFrom room p cs).items.map Prod.fst, ¬ t.HasBareReturn) :
    Source.tokens cs = ((scanFrom room p cs).items.map Prod.fst).map Token.toSource := by
  obtain ⟨placed, hplaced, hitems⟩ := exists_placed_of_complete h 0
  have hfree : ∀ p ∈ placed, ¬ p.token.HasBareReturn := fun p hp =>
    hr p.token (hitems ▸ List.mem_map_of_mem hp)
  have heq := congrArg (List.map Source.PlacedToken.token)
    ((placeTokens_lexemes_iff hplaced).mpr hfree)
  rw [Source.map_token_placeTokens, List.map_map] at heq
  rw [Source.tokens, heq, ← hitems, List.map_map]
  rfl

/-- With room for enough brackets, the strict cut of a text goes through exactly if the text is
one of tokens. -/
theorem exists_complete_iff (cs : List Char) :
    (∃ room, (scanFrom room .start cs).complete = true) ↔
      ∃ placed, placeTokens? 0 cs = some placed := by
  constructor
  · rintro ⟨room, h⟩
    obtain ⟨placed, hplaced, -⟩ := exists_placed_of_complete h 0
    exact ⟨placed, hplaced⟩
  · rintro ⟨placed, h⟩
    exact ⟨cs.length, complete_of_placed h le_rfl .start⟩

/-- **Agreement**: a text can be cut into tokens, whatever room for brackets that takes, exactly if
all that it holds are tokens, each of them the part of the text that its bytes cover. The lenient
cut then finds corresponding tokens with the same bytes, exactly if no string holds a bare
carriage return. -/
theorem placedTokens_eq_iff (source : String) :
    ((∃ room, (scanFrom room .start source.toList).complete = true) ↔
      ∃ placed, placeTokens? 0 source.toList = some placed) ∧
    ∀ room, (scanFrom room .start source.toList).complete = true →
      ∃ placed, placeTokens? 0 source.toList = some placed ∧
        placed.map PlacedToken.token =
          (scanFrom room .start source.toList).items.map Prod.fst ∧
        (∀ p ∈ placed, ∃ front back, source.toList = front ++ p.token.text ++ back ∧
          p.start = byteSize front ∧ p.stop = p.start + byteSize p.token.text) ∧
        (Source.placedTokens source = placed.map PlacedToken.toSource ↔
          ∀ p ∈ placed, ¬ p.token.HasBareReturn) := by
  refine ⟨exists_complete_iff source.toList, fun room h => ?_⟩
  obtain ⟨placed, hplaced, hitems⟩ := exists_placed_of_complete h 0
  refine ⟨placed, hplaced, hitems, fun p hp => ?_, placeTokens_lexemes_iff hplaced⟩
  obtain ⟨front, back, htext, hstart, hstop⟩ := text_of_mem_placeTokens? hplaced hp
  exact ⟨front, back, htext, by rw [hstart, Nat.zero_add], hstop⟩

/-- A string with a quote behind a backslash, which both cuts take as a whole. -/
theorem placedTokens_of_escape :
    (scanFrom maxNesting .start "\x7ba(s:\"1.5\\\"\")\x7d".toList).complete = true ∧
    ∃ placed, placeTokens? 0 "\x7ba(s:\"1.5\\\"\")\x7d".toList = some placed ∧
      placed.map PlacedToken.token =
        (scanFrom maxNesting .start "\x7ba(s:\"1.5\\\"\")\x7d".toList).items.map Prod.fst ∧
      (∀ p ∈ placed, ∃ front back,
        "\x7ba(s:\"1.5\\\"\")\x7d".toList = front ++ p.token.text ++ back ∧
          p.start = byteSize front ∧ p.stop = p.start + byteSize p.token.text) ∧
      (Source.placedTokens "\x7ba(s:\"1.5\\\"\")\x7d" = placed.map PlacedToken.toSource ↔
        ∀ p ∈ placed, ¬ p.token.HasBareReturn) := by
  have h : (scanFrom maxNesting .start "\x7ba(s:\"1.5\\\"\")\x7d".toList).complete = true := by
    decide +kernel
  exact ⟨h, (placedTokens_eq_iff _).2 maxNesting h⟩

/-- Behind a carriage return the lenient cut takes the content of the string for a float. -/
theorem placedTokens_ne_of_bareReturn :
    (scanFrom maxNesting .start "\x7ba(s:\"x\r1.0\")\x7d".toList).complete = true ∧
    (Source.Token.mk .string "\"x\r1.0\"".toList) ∈
      (scanFrom maxNesting .start "\x7ba(s:\"x\r1.0\")\x7d".toList).items.map
        (Token.toSource ∘ Prod.fst) ∧
    (Source.Token.mk .float "1.0".toList) ∈ Source.tokens "\x7ba(s:\"x\r1.0\")\x7d".toList := by
  refine ⟨?_, ?_, ?_⟩ <;> decide +kernel

end QueryDoc.Grammar
