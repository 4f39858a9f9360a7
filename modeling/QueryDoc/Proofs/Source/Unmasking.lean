import QueryDoc.Proofs.Source.Touching

/-!
# QueryDoc.Proofs.Source.Unmasking

Writing literals back. `runNamed?` is the run of tokens that a token stands for: a placeholder
stands for its own run, and no token of the document for any.

Where nothing touches what is held back, the masked text is cut at its placeholders
(`lexemes_textFrom`), and writing the literals back there gives the document again, with each
literal as `layOut` writes it (`unmask_text_mask`).
-/

namespace QueryDoc.Source

open Masked (textFrom)

variable {stem : List Char} {i : Nat}

/-! ## Masked texts as lexemes -/

/-- The lexemes that stay, and a placeholder for each run, the `i`-th one first. -/
def maskedLexemes (stem : List Char) (i : Nat) : List Segment → List Lexeme
  | [] => []
  | .kept l :: rest => l :: maskedLexemes stem i rest
  | .held _ :: rest => .token (placeholderToken stem i) :: maskedLexemes stem (i + 1) rest

/-- **Masked texts** are cut at their placeholders, if nothing touches what is held back. -/
theorem lexemes_textFrom {segments : List Segment} (hstem : IsStem stem) (h : IsMasking segments)
    (hu : Untouched segments) :
    lexemes (textFrom stem i segments) = maskedLexemes stem i segments := by
  induction segments generalizing i with
  | nil => simp [textFrom, maskedLexemes, lexemes]
  | cons s rest ih =>
    obtain ⟨hfree, hrest⟩ := List.isChain_cons.mp hu
    have hends := ih (i := i) h.of_cons hrest
    cases s with
    | kept l =>
      rw [textFrom, maskedLexemes, ← hends]
      by_cases hk : l.kind? = some .name
      · obtain ⟨name, rfl⟩ := Lexeme.exists_name_of_kind? hk
        have hn : isName name = true := h.forms ⟨.name, name⟩ (by simp [Segment.lexemes])
        have hstop := (not_touches_name_iff hstem i hn h).mp hfree
        exact (endsBefore_name hn hstop).lexemes_append
      · exact lexemes_kept_append hstem h hk
    | held run =>
      have hstop := (not_touches_held_iff hstem (i + 1) run h.of_cons).mp hfree
      rw [textFrom, maskedLexemes, ← ih h.of_cons hrest]
      exact (endsBefore_name (hstem.isName_placeholder i) hstop).lexemes_append

/-! ## What tokens stand for -/

theorem unmask_eq (m : Masked) (formatted : List Char) :
    m.unmask formatted = (lexemes formatted).flatMap (unmaskLexeme m.stem m.literals) := by
  unfold Masked.unmask
  simp only
  split
  · next hempty =>
    have hnone : ∀ l : Lexeme, unmaskLexeme m.stem m.literals l = l.text := by
      intro l
      cases l with
      | ignored text => rfl
      | token t =>
        rw [unmaskLexeme, literalNamed?, List.isEmpty_iff.mp hempty]
        cases placeholderIndex? m.stem t.text <;> simp [Lexeme.text]
    rw [funext hnone, flatMap_text_lexemes]
  · rfl

variable {document : List Char}

/-- The run of tokens that a token stands for as a placeholder. -/
def runNamed? (document : List Char) (t : Token) : Option (List Token) :=
  if t.kind = .name then
    (placeholderIndex? (placeholderStem document) t.text).bind fun i => (mask document).runs[i]?
  else none

theorem unmaskLexeme_mask (document : List Char) (t : Token) :
    unmaskLexeme (mask document).stem (mask document).literals (.token t) =
      ((runNamed? document t).map layOut).getD t.text := by
  have hliterals : (mask document).literals = (mask document).runs.map layOut :=
    literals_eq_heldRuns _
  rw [unmaskLexeme, runNamed?, hliterals]
  split
  · show ((placeholderIndex? (placeholderStem document) t.text).bind _).getD _ = _
    cases placeholderIndex? (placeholderStem document) t.text <;> simp
  · rfl

theorem runNamed?_of_mem_tokens {t : Token} (h : t ∈ tokens document) :
    runNamed? document t = none := by
  rw [runNamed?, placeholderIndex?_of_mem_tokens h]
  exact ite_self none

theorem runNamed?_placeholderToken (document : List Char) (i : Nat) :
    runNamed? document (placeholderToken (placeholderStem document) i) =
      (mask document).runs[i]? := by
  rw [runNamed?, placeholderToken, if_pos rfl, placeholderIndex?_placeholder, Option.bind_some]

/-! ## Back to the document -/

/-- The text of a segment, laid out anew if it is held back. -/
def Segment.laidOutText : Segment → List Char
  | kept l => l.text
  | held run => layOut (run.filterMap Lexeme.token?)

/-- Each placeholder is replaced by the run that it was written for. -/
theorem flatMap_unmaskLexeme_maskedLexemes {segments : List Segment}
    (hkept : ∀ t, .kept (.token t) ∈ segments → t ∈ tokens document)
    (hruns : ∀ k run, (heldRuns (segments.filterMap Segment.piece?))[k]? = some run →
      (mask document).runs[i + k]? = some run) :
    (maskedLexemes (placeholderStem document) i segments).flatMap
        (unmaskLexeme (mask document).stem (mask document).literals) =
      segments.flatMap Segment.laidOutText := by
  induction segments generalizing i with
  | nil => rfl
  | cons s rest ih =>
    have hkept' : ∀ t, .kept (.token t) ∈ rest → t ∈ tokens document := fun t ht =>
      hkept t (List.mem_cons_of_mem _ ht)
    cases s with
    | kept l =>
      have hl : unmaskLexeme (mask document).stem (mask document).literals l = l.text := by
        cases l with
        | ignored text => rfl
        | token t =>
          rw [unmaskLexeme_mask, runNamed?_of_mem_tokens (hkept t List.mem_cons_self)]
          rfl
      have hrest := ih hkept' fun k run hk => hruns k run (by cases l <;> exact hk)
      rw [maskedLexemes, List.flatMap_cons, List.flatMap_cons, hl, hrest, Segment.laidOutText]
    | held run =>
      have hrun : (mask document).runs[i]? = some (run.filterMap Lexeme.token?) := hruns 0 _ rfl
      have hrest := ih (i := i + 1) hkept' fun k run' hk => by
        have hnext := hruns (k + 1) run' hk
        rwa [← Nat.add_assoc, Nat.add_right_comm] at hnext
      rw [maskedLexemes, List.flatMap_cons, List.flatMap_cons, unmaskLexeme_mask,
        runNamed?_placeholderToken, hrun, hrest, Segment.laidOutText]
      rfl

/-- **Writing literals back** into a masked text gives the document with its literals laid out
anew, if nothing touches them. -/
theorem unmask_text_mask (h : Untouched (mask document).segments) :
    (mask document).unmask (mask document).text =
      (mask document).segments.flatMap Segment.laidOutText := by
  have hlexemes := lexemes_textFrom (i := 0) (isStem_placeholderStem document)
    (isMasking_segments document) h
  rw [unmask_eq, show lexemes (mask document).text = _ from hlexemes]
  refine flatMap_unmaskLexeme_maskedLexemes (fun t => mem_tokens_of_kept_segment) fun k run hk => ?_
  rwa [Nat.zero_add]

end QueryDoc.Source
