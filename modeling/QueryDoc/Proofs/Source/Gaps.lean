import QueryDoc.Proofs.Source.Bytes
import QueryDoc.Proofs.Source.Masking
import QueryDoc.Proofs.Source.Places

/-!
# QueryDoc.Proofs.Source.Gaps

The text between tokens. It holds nothing but blanks and comments (`IsFiller`), and a text
consists of its tokens and of the gaps in front of, between and behind them
(`placedTokens_partition`). What stands in a gap is of no account, as long as there is one:
`tokens_intercalate_texts` puts a line feed into each gap and leaves out the rest.
-/

namespace QueryDoc.Source

/-! ## Filler -/

/-- Blanks and comments in front of `back`. A comment reaches up to the end of its line or of
the text. -/
inductive IsFiller (back : List Char) : List Char → Prop where
  | nil : IsFiller back []
  | blank {c : Char} {cs : List Char} (hc : c ∈ [' ', '\t', '\n', '\r', ',', '\ufeff'])
      (hcs : IsFiller back cs) : IsFiller back (c :: cs)
  | comment {body cs : List Char} (hbody : ∀ c ∈ body, c ≠ '\n' ∧ c ≠ '\r')
      (hend : ∀ c ∈ (cs ++ back).head?, c = '\n' ∨ c = '\r') (hcs : IsFiller back cs) :
      IsFiller back ('#' :: (body ++ cs))

theorem IsFiller.append {front mid back : List Char} (h : IsFiller (mid ++ back) front)
    (hm : IsFiller back mid) : IsFiller back (front ++ mid) := by
  induction h with
  | nil => exact hm
  | blank hc _ ih => exact .blank hc ih
  | comment hbody hend _ ih =>
    rw [List.cons_append, List.append_assoc]
    exact .comment hbody (by rwa [List.append_assoc]) ih

theorem isLineEnd_iff {c : Char} : isLineEnd c = true ↔ c = '\n' ∨ c = '\r' := by
  simp [isLineEnd]

/-- A lexeme that is no token is a blank or a comment. -/
theorem Lexeme.EndsBefore.isFiller {text rest : List Char}
    (h : (Lexeme.ignored text).EndsBefore rest) : IsFiller rest text := by
  cases h.form with
  | blank hc => exact .blank (mem_of_isIgnorable hc) .nil
  | @comment body _ hbody hend =>
    have hfiller : IsFiller rest ('#' :: (body ++ [])) := by
      refine .comment (fun c hc => ?_) (fun c hc => isLineEnd_iff.mp (hend c hc)) .nil
      exact not_or.mp (mt isLineEnd_iff.mpr (Bool.eq_false_iff.mp (hbody c hc)))
    rwa [List.append_nil] at hfiller

/-! ## Gaps -/

/-- Bytes of a text: from `start` up to, but without, `stop`. -/
structure Span where
  start : Nat
  stop : Nat
deriving DecidableEq, Repr

/-- What tokens leave of the bytes from `start` up to `stop`: one gap in front of each, and one
behind the last. -/
def gaps (start stop : Nat) : List PlacedToken → List Span
  | [] => [⟨start, stop⟩]
  | p :: ps => ⟨start, p.start⟩ :: gaps p.stop stop ps

/-- Whether nothing but filler stands between two bytes of a text. -/
def Span.IsGap (s : Span) (cs : List Char) : Prop :=
  ∃ front filler back, cs = front ++ (filler ++ back) ∧ s.start = byteSize front ∧
    s.stop = byteSize (front ++ filler) ∧ IsFiller back filler

/-- Between tokens stand the lexemes that are none. The first gap may have begun in front of
them, with filler behind `front`. -/
theorem isGap_of_mem_gaps {ls : List Lexeme} (hcut : IsCut ls) {cs : List Char}
    (front filler : List Char) (hcs : cs = front ++ (filler ++ ls.flatMap Lexeme.text))
    (hf : IsFiller (ls.flatMap Lexeme.text) filler) :
    ∀ g ∈ gaps (byteSize front) (byteSize cs) (placeTokens (byteSize (front ++ filler)) ls),
      g.IsGap cs := by
  induction ls generalizing front filler with
  | nil =>
    rw [List.flatMap_nil, List.append_nil] at hcs
    refine List.forall_mem_singleton.mpr ⟨front, filler, [], ?_, rfl, congrArg byteSize hcs, hf⟩
    rw [List.append_nil, hcs]
  | cons l ls ih =>
    obtain ⟨hends, hcut⟩ := hcut
    rw [List.flatMap_cons] at hcs hf
    cases l with
    | ignored text =>
      have hrest := ih hcut front (filler ++ text)
        (by rw [hcs, List.append_assoc filler]; rfl) (hf.append hends.isFiller)
      rwa [← List.append_assoc, byteSize_append _ text] at hrest
    | token t =>
      have hrest := ih hcut (front ++ filler ++ t.text) []
        (by rw [hcs, List.append_assoc, List.append_assoc]; rfl) .nil
      rw [List.append_nil, byteSize_append _ t.text] at hrest
      exact List.forall_mem_cons.mpr ⟨⟨front, filler, _, hcs, rfl, rfl, hf⟩, hrest⟩

theorem byteSize_pos {cs : List Char} (h : cs ≠ []) : 0 < byteSize cs := by
  obtain ⟨c, cs, rfl⟩ := List.exists_cons_of_ne_nil h
  exact Nat.add_pos_left c.utf8Size_pos _

/-- **Tokens and gaps**: the bytes of every text are cut into tokens without a look inside a
character. Each token has a text of its own, that of the bytes it covers, each stands behind the
one before, and nothing but blanks and comments stands in front of them, between them and
behind them. -/
theorem placedTokens_partition (source : String) :
    byteTokens? 0 (utf8Bytes source) = some ((placedTokens source).map PlacedToken.extent) ∧
      (∀ p ∈ placedTokens source,
        p.Covers source.toList ∧ p.start < p.stop ∧ p.stop ≤ source.utf8ByteSize) ∧
      (placedTokens source).Pairwise (fun p q => p.stop ≤ q.start) ∧
      ∀ g ∈ gaps 0 source.utf8ByteSize (placedTokens source), g.IsGap source.toList := by
  refine ⟨byteTokens?_utf8Bytes source, fun p hp => ?_, pairwise_placeTokens _ _, ?_⟩
  · have hcovers := covers_of_mem_placeTokens_lexemes source.toList p hp
    obtain ⟨_, hends⟩ := endsBefore_of_mem_tokens (mem_tokens_of_mem_placeTokens p hp)
    refine ⟨hcovers, ?_⟩
    obtain ⟨front, back, hsource, hstart, hstop⟩ := hcovers
    constructor
    · rw [hstart, hstop, byteSize_append]
      exact Nat.lt_add_of_pos_right (byteSize_pos hends.text_ne_nil)
    · rw [utf8ByteSize_eq_byteSize, hsource, hstop, ← List.append_assoc, byteSize_append _ back]
      exact Nat.le_add_right _ _
  · rw [utf8ByteSize_eq_byteSize]
    refine isGap_of_mem_gaps (isCut_lexemes source.toList) [] [] ?_ .nil
    exact (flatMap_text_lexemes source.toList).symm

/-! ## Gaps do not matter -/

theorem endsLike_nil (rest : List Char) : EndsLike rest [] :=
  ⟨fun _ => rfl, fun _ c hc => by contradiction, fun c hc => by contradiction,
    fun hd => by contradiction⟩

/-- In front of more text, whatever ends a token may be replaced by a line feed. -/
theorem endsLike_newline {rest : List Char} (h : rest ≠ []) (rest' : List Char) :
    EndsLike rest ('\n' :: rest') := by
  refine ⟨fun hn => absurd hn h, fun _ c hc => ?_, fun c hc => ?_, fun hd => ?_⟩
  · cases hc
    rfl
  · cases hc
    exact .inr rfl
  · cases hd

theorem tokens_nil : tokens [] = [] := by
  rw [tokens, lexemes, List.filterMap_nil]

theorem tokens_blank {c : Char} (h : isIgnorable c = true) (cs : List Char) :
    tokens (c :: cs) = tokens cs := by
  rw [tokens, lexemes_blank h, tokens]
  rfl

theorem tokens_of_endsBefore {t : Token} {rest : List Char} (h : (Lexeme.token t).EndsBefore rest) :
    tokens t.text = [t] := by
  have hends := h.transfer (endsLike_nil rest) fun _ _ hc => by contradiction
  have htokens := tokens_append_of_endsBefore hends
  rwa [List.append_nil, tokens_nil] at htokens

theorem tokens_intercalate_of_isCut {ls : List Lexeme} (h : IsCut ls) :
    tokens (['\n'].intercalate ((ls.filterMap Lexeme.token?).map Token.text)) =
      ls.filterMap Lexeme.token? := by
  induction ls with
  | nil => exact tokens_nil
  | cons l ls ih =>
    obtain ⟨hends, hcut⟩ := h
    have hrest := ih hcut
    cases l with
    | ignored text => exact hrest
    | token t =>
      have hcons : (Lexeme.token t :: ls).filterMap Lexeme.token? =
          t :: ls.filterMap Lexeme.token? := rfl
      rw [hcons, List.map_cons]
      by_cases hnone : ls.filterMap Lexeme.token? = []
      · rw [hnone, List.map_nil, List.intercalate_singleton]
        exact tokens_of_endsBefore hends
      · -- There is another token, so this one does not reach to the end of the text.
        have hne : ls.flatMap Lexeme.text ≠ [] := by
          cases ls with
          | nil => exact absurd rfl hnone
          | cons m ms => simp [hcut.1.text_ne_nil]
        rw [List.intercalate_cons_of_ne_nil (mt List.map_eq_nil_iff.mp hnone), List.append_assoc]
        generalize ['\n'].intercalate ((ls.filterMap Lexeme.token?).map Token.text) = text at hrest
        have hnewline := hends.transfer (endsLike_newline hne text) fun _ c hc => by
          cases hc
          rfl
        have htokens := tokens_append_of_endsBefore hnewline
        rwa [tokens_blank rfl, hrest] at htokens

/-- **Gaps do not matter**: a text has the tokens of its tokens' texts, with a line feed between
each two of them, and each of these texts by itself is the one token. -/
theorem tokens_intercalate_texts (cs : List Char) :
    tokens (['\n'].intercalate ((tokens cs).map Token.text)) = tokens cs ∧
      ∀ t ∈ tokens cs, tokens t.text = [t] := by
  refine ⟨tokens_intercalate_of_isCut (isCut_lexemes cs), fun t ht => ?_⟩
  obtain ⟨rest, hends⟩ := endsBefore_of_mem_tokens ht
  exact tokens_of_endsBefore hends

end QueryDoc.Source
