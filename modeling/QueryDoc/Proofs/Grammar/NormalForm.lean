import QueryDoc.Proofs.Grammar.ObjectValue
import QueryDoc.Proofs.Source.Splicing

/-!
# QueryDoc.Proofs.Grammar.NormalForm

The layout of a row of tokens as a normal form. `layOut` leaves gaps between items and behind
colons only, where the text that the tokens come from may have had others and more. No two
tokens grow together all the same, and no token falls apart: what is laid out has the tokens
that it was made of, and so the same layout (`exists_layOut?_of_isPlainRun`).
-/

namespace QueryDoc.Grammar

open Source (layOut layOut? lexemes placeTokens tokens)

/-- The bytes of a text's tokens are those of their characters. -/
theorem layOut?_of_subset {source : List Char} {run : List Source.PlacedToken}
    (h : run ⊆ placeTokens 0 (lexemes source)) :
    layOut? source (run.map Source.PlacedToken.extent) =
      some (layOut (run.map Source.PlacedToken.token)) :=
  Source.layOutFrom?_extent
    (fun p hp => Source.covers_of_mem_placeTokens_lexemes source p (h hp)) none

/-- Tokens of a text that stay what they are behind and in front of others: each is a token of a
document, none is a row of dots, and the strings are closed. -/
structure IsPlainRun (source : List Char) (run : List Source.PlacedToken) : Prop where
  subset : run ⊆ placeTokens 0 (lexemes source)
  known : ∀ t ∈ run.map Source.PlacedToken.token, t.kind ≠ .unknown ∧ t.kind ≠ .spread
  closed : ∀ t ∈ run.map Source.PlacedToken.token, t.kind = .string → t.isClosed = true

theorem IsPlainRun.tokens_layOut {source : List Char} {run : List Source.PlacedToken}
    (h : IsPlainRun source run) :
    tokens (layOut (run.map Source.PlacedToken.token)) = run.map Source.PlacedToken.token := by
  refine Grammar.tokens_layOut fun t ht => ⟨?_, (h.known t ht).2⟩
  obtain ⟨p, hp, rfl⟩ := List.mem_map.mp ht
  exact isSolid_of_mem_tokens (Source.mem_tokens_of_mem_placeTokens p (h.subset hp))
    (h.known _ ht).1 (h.closed _ ht)

/-- **Normal form**: the layout of tokens has the same tokens, and is the layout of its own
tokens. Wherever they are taken from, tokens have this layout exactly if they are the same. -/
theorem exists_layOut?_of_isPlainRun {source : List Char} {run : List Source.PlacedToken}
    (h : IsPlainRun source run) :
    ∃ text, layOut? source (run.map Source.PlacedToken.extent) = some text ∧
      tokens text = run.map Source.PlacedToken.token ∧
      layOut? text ((placeTokens 0 (lexemes text)).map Source.PlacedToken.extent) = some text ∧
      ∀ source' run', IsPlainRun source' run' →
        (layOut? source' (run'.map Source.PlacedToken.extent) = some text ↔
          run'.map Source.PlacedToken.token = run.map Source.PlacedToken.token) := by
  refine ⟨_, layOut?_of_subset h.subset, h.tokens_layOut, ?_, fun source' run' h' => ?_⟩
  · rw [layOut?_of_subset (List.Subset.refl _), Source.map_token_placeTokens, ← tokens,
      h.tokens_layOut]
  · rw [layOut?_of_subset h'.subset, Option.some.injEq]
    constructor
    · intro hsame
      rw [← h'.tokens_layOut, hsame, h.tokens_layOut]
    · intro hsame
      rw [hsame]

/-- An argument that is an object, with blanks and a comment in it. -/
def spacedArgument : List Char :=
  "(in: \x7b b : 1.50 #\x7d\n a:[\"x, y\"$v] \x7d)".toList

/-- The tokens of the object. -/
def spacedObject : List Source.PlacedToken :=
  ((placeTokens 0 (lexemes spacedArgument)).drop 3).dropLast

theorem map_token_spacedObject : spacedObject.map Source.PlacedToken.token =
    [⟨.punctuator '{', ['{']⟩, ⟨.name, ['b']⟩, ⟨.punctuator ':', [':']⟩,
      ⟨.float, ['1', '.', '5', '0']⟩, ⟨.name, ['a']⟩, ⟨.punctuator ':', [':']⟩,
      ⟨.punctuator '[', ['[']⟩, ⟨.string, ['"', 'x', ',', ' ', 'y', '"']⟩,
      ⟨.punctuator '$', ['$']⟩, ⟨.name, ['v']⟩, ⟨.punctuator ']', [']']⟩,
      ⟨.punctuator '}', ['}']⟩] := by
  cbv

theorem isPlainRun_spacedObject : IsPlainRun spacedArgument spacedObject where
  subset := ((List.dropLast_sublist _).trans (List.drop_sublist _ _)).subset
  known := by
    rw [map_token_spacedObject]
    decide
  closed := by
    rw [map_token_spacedObject]
    decide

theorem layOut?_spacedObject : IsPlainRun spacedArgument spacedObject ∧
    layOut? spacedArgument (spacedObject.map Source.PlacedToken.extent) =
      some "\x7bb: 1.50, a: [\"x, y\", $v]\x7d".toList ∧
    tokens "\x7bb: 1.50, a: [\"x, y\", $v]\x7d".toList =
      spacedObject.map Source.PlacedToken.token := by
  obtain ⟨text, hlayout, htokens, -⟩ := exists_layOut?_of_isPlainRun isPlainRun_spacedObject
  have htext : layOut? spacedArgument (spacedObject.map Source.PlacedToken.extent) =
      some "\x7bb: 1.50, a: [\"x, y\", $v]\x7d".toList := by cbv
  obtain rfl := Option.some.inj (htext.symm.trans hlayout)
  exact ⟨isPlainRun_spacedObject, htext, htokens⟩

end QueryDoc.Grammar
