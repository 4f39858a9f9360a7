import QueryDoc.Proofs.Value
import QueryDoc.Proofs.Source.Places

/-!
# QueryDoc.Proofs.Value.Tokens

The tokens that the literal of a value is cut into. They are the ones that the value consists of
(`Value.tokens`): a token for each number, word and string, and marks around lists and objects
and in front of variables and the values of fields. Nothing that stands next to a part of a
literal, and nothing inside a string, changes how the part is cut
(`Value.lexemes_text_append`, `Value.placedTokens_text`).
-/

namespace QueryDoc

open Grammar (Laid Terminal Verbatim WrittenAs isInner laidOut)
open Source (Lexeme PlacedToken Token layOut lexemes placeTokens placedTokens)

/-! ## The tokens of a value -/

/-- A mark as a token. -/
def markToken (c : Char) : Token := ⟨.punctuator c, [c]⟩

/-- A word as a token. -/
def wordToken (word : String) : Token := ⟨.name, word.toList⟩

mutual

/-- The tokens that a value consists of. -/
def Value.tokens : Value → List Token
  | .bool b => [wordToken (if b then "true" else "false")]
  | .enum name => [wordToken name]
  | .float x =>
    if x.isFinite then [⟨.float, Binary64.pointed x.shortText⟩] else [wordToken "null"]
  | .int n => [⟨.int, Decimal.intText n.toInt⟩]
  | .list items => markToken '[' :: (itemTokens items ++ [markToken ']'])
  | .null => [wordToken "null"]
  | .object ⟨fields⟩ => markToken '\x7b' :: (fieldTokens fields ++ [markToken '\x7d'])
  | .string s => [⟨.string, '"' :: (s.toList ++ ['"'])⟩]
  | .reference v => [markToken '$', wordToken v.name]

/-- The tokens of a list's items, one item behind the other. -/
def itemTokens : List Value → List Token
  | [] => []
  | v :: vs => v.tokens ++ itemTokens vs

/-- The tokens of an object's fields, each with its key and a colon in front. -/
def fieldTokens : List (String × Value) → List Token
  | [] => []
  | (key, v) :: fields => wordToken key :: markToken ':' :: (v.tokens ++ fieldTokens fields)

end

mutual

/-- The tokens of a value spell its counterpart in the grammar. -/
theorem Value.map_token_terminals (v : Value) :
    v.meaning.terminals.map Terminal.token = v.tokens := by
  cases v with
  | float x =>
    rw [Value.meaning, Value.tokens]
    split <;> rfl
  | list items =>
    simp only [Value.meaning, Value.tokens, Grammar.Value.terminals, List.map_cons,
      List.map_append, List.map_nil, map_token_itemTerminals items]
    rfl
  | object fields =>
    simp only [Value.meaning, Value.tokens, Grammar.Value.terminals, List.map_cons,
      List.map_append, List.map_nil, map_token_fieldTerminals fields.entries]
    rfl
  | _ => rfl

theorem map_token_itemTerminals (vs : List Value) :
    (Grammar.itemTerminals (itemMeanings vs)).map Terminal.token = itemTokens vs := by
  cases vs with
  | nil => rfl
  | cons v vs =>
    rw [itemMeanings, Grammar.itemTerminals, List.map_append, v.map_token_terminals,
      map_token_itemTerminals vs, itemTokens]

theorem map_token_fieldTerminals (fields : List (String × Value)) :
    (Grammar.fieldTerminals (fieldMeanings fields)).map Terminal.token = fieldTokens fields := by
  cases fields with
  | nil => rfl
  | cons f fields =>
    obtain ⟨key, v⟩ := f
    rw [fieldMeanings, Grammar.fieldTerminals, List.map_cons, List.map_cons, List.map_append,
      v.map_token_terminals, map_token_fieldTerminals fields, fieldTokens]
    rfl

end

/-! ## Cutting literals -/

theorem Value.layOut_tokens (v : Value) : layOut v.tokens = v.text.toList := by
  rw [← v.map_token_terminals, v.isItem_text.layOut]

theorem Value.isSolid_of_mem_tokens {v : Value} (h : v.Spellable isInner) :
    ∀ t ∈ v.tokens, Grammar.IsSolid t ∧ t.kind ≠ .spread := by
  have hwritten := v.writtenAs_meaning (fun _ hc => hc) h
  rw [← v.map_token_terminals]
  refine List.forall_mem_map.mpr fun u hu => ⟨(hwritten u hu).solid, fun hspread => ?_⟩
  cases u with
  | spread => exact Grammar.spread_not_mem_terminals v.meaning hu
  | _ => contradiction

/-- The tokens of a value are found in front of everything that ends a token, and are laid out
in its literal. -/
theorem Value.lexemes_text_append {v : Value} (h : v.Spellable isInner) {rest : List Char}
    (hr : Grammar.Stops rest) :
    lexemes (v.text.toList ++ rest) = laidOut none v.tokens ++ lexemes rest := by
  rw [← v.layOut_tokens]
  exact (Grammar.lexemes_layOutFrom (isSolid_of_mem_tokens h) hr none).1

theorem Value.tokens_text {v : Value} (h : v.Spellable isInner) :
    Source.tokens v.text.toList = v.tokens := by
  rw [← v.layOut_tokens]
  exact Grammar.tokens_layOut (isSolid_of_mem_tokens h)

/-- **Tokens of literals**: the literal of a value whose words are names, and whose strings hold
no quote, backslash or line end, is cut into the tokens that the value consists of, one behind
the other, each over the bytes of its own characters. -/
theorem Value.placedTokens_text {v : Value} (h : v.Spellable isInner) :
    (placedTokens v.text).map PlacedToken.token = v.tokens ∧
      (placedTokens v.text).Pairwise (fun p q => p.stop ≤ q.start) ∧
      ∀ p ∈ placedTokens v.text, p.Covers v.text.toList := by
  refine ⟨?_, Source.pairwise_placeTokens _ _, fun p hp => ?_⟩
  · rw [placedTokens, Source.map_token_placeTokens]
    exact Value.tokens_text h
  · have hcovers := Source.covers_of_mem_placeTokens [] p hp
    rwa [Source.flatMap_text_lexemes, List.nil_append] at hcovers

/-- A list with an object in it, and with text in a string that looks like other literals. -/
def mixedValue : Value :=
  .list [.int (-7), .float ⟨0x8000000000000000⟩, .float ⟨0x7FF0000000000000⟩,
    .object ⟨[("at", .string "né, \x7b1.5\x7d"), ("of", .reference ⟨"x"⟩)]⟩]

theorem spellable_mixedValue : mixedValue.Spellable isInner :=
  ⟨trivial, trivial, trivial, ⟨rfl, List.all_eq_true.mp (by decide), rfl, rfl, trivial⟩, trivial⟩

theorem placedTokens_mixedValue : mixedValue.Spellable isInner ∧
    (placedTokens mixedValue.text).map PlacedToken.token =
      [markToken '[', ⟨.int, ['-', '7']⟩, ⟨.float, ['-', '0', '.', '0']⟩, wordToken "null",
        markToken '\x7b', wordToken "at", markToken ':',
        ⟨.string, "\"né, \x7b1.5\x7d\"".toList⟩, wordToken "of", markToken ':', markToken '$',
        wordToken "x", markToken '\x7d', markToken ']'] := by
  refine ⟨spellable_mixedValue, ?_⟩
  rw [(Value.placedTokens_text spellable_mixedValue).1]
  decide +kernel

end QueryDoc
