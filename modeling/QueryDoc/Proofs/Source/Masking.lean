import QueryDoc.Proofs.Source.Placeholder

/-!
# QueryDoc.Proofs.Source.Masking

The tokens of a masked text. A placeholder is written where a run of lexemes is held back,
with nothing around it, so it is a token of its own only if no name, no digit and no other
placeholder touches it (`Untouched`).

`tokens_text_mask_iff` says that this is the only thing that can go wrong: the tokens of the
masked text are those of the document, with one name in place of each run, exactly if
nothing touches a run. What is held back is a float or starts and ends with the braces of
an object, and each placeholder stands for the literal that it replaces.
-/

namespace QueryDoc.Source

/-! ## Roles -/

/-- The role of a mark. -/
theorem role_punctuator (nesting : List Bracket) (previous : Option TokenKind) (mark : Char) :
    (roleOf nesting previous (.punctuator mark)).1 =
      if mark = '{' then if opensObject nesting previous then .opensObject else .other
      else if mark = '}' ∧ nesting.head? = some .object ∧ .object ∉ nesting.tail then
        .closesOutermost
      else .other := by
  by_cases ho : mark = '{'
  · simp only [roleOf, if_pos ho]
    split <;> rfl
  by_cases hc : mark = '}'
  · simp only [roleOf, if_neg ho, if_pos hc]
    cases nesting with
    | nil => simp
    | cons b outer => cases b <;> simp [hc]
  · rw [if_neg ho, if_neg fun h => hc h.1]
    simp only [roleOf, if_neg ho, if_neg hc]
    split
    · rfl
    split
    · rfl
    split <;> rfl

theorem kind_of_opensObject {nesting : List Bracket} {previous : Option TokenKind}
    {kind : TokenKind} (h : (roleOf nesting previous kind).1 = .opensObject) :
    kind = .punctuator '{' := by
  cases kind with
  | punctuator mark =>
    rw [role_punctuator] at h
    grind
  | _ => cases h

theorem kind_of_closesOutermost {nesting : List Bracket} {previous : Option TokenKind}
    {kind : TokenKind} (h : (roleOf nesting previous kind).1 = .closesOutermost) :
    kind = .punctuator '}' := by
  cases kind with
  | punctuator mark =>
    rw [role_punctuator] at h
    grind
  | _ => cases h

theorem kind_of_float {nesting : List Bracket} {previous : Option TokenKind}
    {kind : TokenKind} (h : (roleOf nesting previous kind).1 = .float) : kind = .float := by
  cases kind with
  | punctuator mark =>
    rw [role_punctuator] at h
    grind
  | float => rfl
  | _ => cases h

/-! ## One step

What a token does to the runs: with no object pending it opens one, is held back as a float
or stays; with an object pending it goes into its run, and may be the last of it. -/

section Step

variable (nesting : List Bracket) (previous : Option TokenKind) (t : Token) (rest : List Lexeme)

theorem segmentsFrom_opensObject (h : (roleOf nesting previous t.kind).1 = .opensObject) :
    segmentsFrom nesting previous none (.token t :: rest) =
      segmentsFrom (roleOf nesting previous t.kind).2 (some t.kind) (some [.token t]) rest := by
  conv => lhs; unfold segmentsFrom
  simp only [h]

theorem segmentsFrom_float (h : (roleOf nesting previous t.kind).1 = .float) :
    segmentsFrom nesting previous none (.token t :: rest) =
      .held [.token t] ::
        segmentsFrom (roleOf nesting previous t.kind).2 (some t.kind) none rest := by
  conv => lhs; unfold segmentsFrom
  simp only [h]

theorem segmentsFrom_kept (ho : (roleOf nesting previous t.kind).1 ≠ .opensObject)
    (hf : (roleOf nesting previous t.kind).1 ≠ .float) :
    segmentsFrom nesting previous none (.token t :: rest) =
      .kept (.token t) ::
        segmentsFrom (roleOf nesting previous t.kind).2 (some t.kind) none rest := by
  conv => lhs; unfold segmentsFrom
  cases h : (roleOf nesting previous t.kind).1 <;> simp_all only [ne_eq, not_true_eq_false]

theorem segmentsFrom_closesOutermost (run : List Lexeme)
    (h : (roleOf nesting previous t.kind).1 = .closesOutermost) :
    segmentsFrom nesting previous (some run) (.token t :: rest) =
      .held (.token t :: run).reverse ::
        segmentsFrom (roleOf nesting previous t.kind).2 (some t.kind) none rest := by
  conv => lhs; unfold segmentsFrom
  simp only [h]

theorem segmentsFrom_pending (run : List Lexeme)
    (h : (roleOf nesting previous t.kind).1 ≠ .closesOutermost) :
    segmentsFrom nesting previous (some run) (.token t :: rest) =
      segmentsFrom (roleOf nesting previous t.kind).2 (some t.kind) (some (.token t :: run))
        rest := by
  conv => lhs; unfold segmentsFrom
  cases hr : (roleOf nesting previous t.kind).1 <;> simp_all only [ne_eq, not_true_eq_false]

end Step

/-! ## What is held back -/

/-- A brace as a lexeme. -/
def brace (mark : Char) : Lexeme := .token ⟨.punctuator mark, [mark]⟩

theorem eq_brace {t : Token} {mark : Char} (hf : t.HasForm) (hk : t.kind = .punctuator mark) :
    Lexeme.token t = brace mark := by
  obtain ⟨kind, text⟩ := t
  cases hk
  rw [brace, ← (show text = [mark] from hf.2)]

/-- A float, or lexemes from the brace that opens an object to the one that closes it. -/
def IsLiteralRun (run : List Lexeme) : Prop :=
  (∃ t, t.kind = .float ∧ run = [.token t]) ∨ ∃ inner, run = brace '{' :: inner ++ [brace '}']

/-- The lexemes of an object that has not been closed yet, the latest one first. -/
def IsOpenRun (run : List Lexeme) : Prop := ∃ inner, run = inner ++ [brace '{']

theorem IsOpenRun.cons {run : List Lexeme} (h : IsOpenRun run) (l : Lexeme) :
    IsOpenRun (l :: run) := by
  obtain ⟨inner, rfl⟩ := h
  exact ⟨l :: inner, List.cons_append.symm⟩

theorem IsOpenRun.close {run : List Lexeme} (h : IsOpenRun run) :
    IsLiteralRun (brace '}' :: run).reverse := by
  obtain ⟨inner, rfl⟩ := h
  refine Or.inr ⟨inner.reverse, ?_⟩
  rw [List.reverse_cons, List.reverse_append]
  rfl

/-- What lexemes are cut into: runs that are literals, and lexemes that stay. No float stays, up
to an object that is never closed. -/
inductive IsSegmentation : List Segment → Prop where
  | nil : IsSegmentation []
  | kept {l : Lexeme} {rest : List Segment} (hf : l.kind? ≠ some .float)
      (hrest : IsSegmentation rest) : IsSegmentation (.kept l :: rest)
  | held {run : List Lexeme} {rest : List Segment} (hrun : IsLiteralRun run)
      (hrest : IsSegmentation rest) : IsSegmentation (.held run :: rest)
  | unclosed (ls : List Lexeme) : IsSegmentation ((brace '{' :: ls).map .kept)

/-- A pending run starts with the brace of its object. It is held back as soon as the brace that
closes the object has been read, and stays if there is none. -/
theorem isSegmentation_segmentsFrom (nesting : List Bracket) (previous : Option TokenKind)
    (pending : Option (List Lexeme)) (ls : List Lexeme)
    (hls : ∀ t, Lexeme.token t ∈ ls → t.HasForm) (hpending : ∀ run ∈ pending, IsOpenRun run) :
    IsSegmentation (segmentsFrom nesting previous pending ls) := by
  induction ls generalizing nesting previous pending with
  | nil =>
    cases pending with
    | none => exact .nil
    | some run =>
      obtain ⟨inner, rfl⟩ := hpending run rfl
      simpa [segmentsFrom] using IsSegmentation.unclosed inner.reverse
  | cons l ls ih =>
    have hrest : ∀ t, Lexeme.token t ∈ ls → t.HasForm :=
      fun t ht => hls t (List.mem_cons_of_mem _ ht)
    cases l with
    | ignored text =>
      cases pending with
      | none => exact .kept (by simp [Lexeme.kind?, Lexeme.token?]) (ih _ _ _ hrest (by simp))
      | some run => exact ih _ _ _ hrest (by simpa using (hpending run rfl).cons _)
    | token t =>
      have hform : t.HasForm := hls t List.mem_cons_self
      cases pending with
      | none =>
        by_cases ho : (roleOf nesting previous t.kind).1 = .opensObject
        · rw [segmentsFrom_opensObject _ _ _ _ ho, eq_brace hform (kind_of_opensObject ho)]
          exact ih _ _ _ hrest (by simpa using ⟨[], rfl⟩)
        by_cases hf : (roleOf nesting previous t.kind).1 = .float
        · rw [segmentsFrom_float _ _ _ _ hf]
          exact .held (Or.inl ⟨t, kind_of_float hf, rfl⟩) (ih _ _ _ hrest (by simp))
        · rw [segmentsFrom_kept _ _ _ _ ho hf]
          refine .kept (fun hk => hf ?_) (ih _ _ _ hrest (by simp))
          rw [show t.kind = .float by simpa [Lexeme.kind?, Lexeme.token?] using hk]
          rfl
      | some run =>
        by_cases hc : (roleOf nesting previous t.kind).1 = .closesOutermost
        · rw [segmentsFrom_closesOutermost _ _ _ _ _ hc,
            eq_brace hform (kind_of_closesOutermost hc)]
          exact .held (hpending run rfl).close (ih _ _ _ hrest (by simp))
        · rw [segmentsFrom_pending _ _ _ _ _ hc]
          exact ih _ _ _ hrest (by simpa using (hpending run rfl).cons _)

theorem isSegmentation_mask (document : List Char) : IsSegmentation (mask document).segments :=
  isSegmentation_segmentsFrom [] none none _ (fun _ => hasForm_of_mem_lexemes) (by simp)

theorem IsSegmentation.isLiteralRun {segments : List Segment} (h : IsSegmentation segments)
    {run : List Lexeme} (hrun : .held run ∈ segments) : IsLiteralRun run := by
  induction h with
  | nil => contradiction
  | kept _ _ ih =>
    obtain heq | hrun := List.mem_cons.mp hrun
    · contradiction
    · exact ih hrun
  | held hliteral _ ih =>
    obtain heq | hrun := List.mem_cons.mp hrun
    · cases heq
      exact hliteral
    · exact ih hrun
  | unclosed ls => simp at hrun

/-! ## Masked text -/

/-- The tokens of a segment. -/
def Segment.tokens (s : Segment) : List Token := s.lexemes.filterMap Lexeme.token?

/-- The tokens that stay, and one name for each run, with placeholders counted from `i`. -/
def maskedTokens (stem : List Char) (i : Nat) : List Segment → List Token
  | [] => []
  | .kept l :: rest => l.token?.toList ++ maskedTokens stem i rest
  | .held _ :: rest => ⟨.name, placeholder stem i⟩ :: maskedTokens stem (i + 1) rest

/-- Whether two neighbours grow together when what is held back becomes a name: a name in
front of a run, two runs, or a run in front of a lexeme that begins with a name character. -/
def Segment.Touches : Segment → Segment → Prop
  | .kept l, .held _ => l.kind? = some .name
  | .held _, .kept l => ∃ c ∈ l.text.head?, isNameChar c = true
  | .held _, .held _ => True
  | .kept _, .kept _ => False

/-- Whether nothing touches what is held back. -/
def Untouched (segments : List Segment) : Prop :=
  segments.IsChain fun a b => ¬ a.Touches b

/-- The text of a row of segments as it stands in the document. -/
def originalText (segments : List Segment) : List Char :=
  (segments.flatMap Segment.lexemes).flatMap Lexeme.text

@[simp] theorem originalText_kept (l : Lexeme) (rest : List Segment) :
    originalText (.kept l :: rest) = l.text ++ originalText rest := by
  simp [originalText, Segment.lexemes]

@[simp] theorem originalText_held (run : List Lexeme) (rest : List Segment) :
    originalText (.held run :: rest) = run.flatMap Lexeme.text ++ originalText rest := by
  simp [originalText, Segment.lexemes]

theorem tokens_append_of_endsBefore {l : Lexeme} {rest : List Char} (h : l.EndsBefore rest) :
    tokens (l.text ++ rest) = l.token?.toList ++ tokens rest := by
  rw [tokens, h.lexemes_append, tokens]
  cases l <;> rfl

theorem tokens_name_append {name : List Char} (h : isName name = true) (rest : List Char) :
    tokens (name ++ rest) =
      ⟨.name, name ++ rest.takeWhile isNameChar⟩ :: tokens (rest.dropWhile isNameChar) := by
  rw [tokens, lexemes_name_append h]
  rfl

/-- A name that goes on behind its end is another name. -/
theorem head_tokens_name_ne {name rest : List Char} (h : isName name = true)
    (hc : ∃ c ∈ rest.head?, isNameChar c = true) (ts : List Token) :
    tokens (name ++ rest) ≠ ⟨.name, name⟩ :: ts := by
  obtain ⟨c, hmem, hname⟩ := hc
  obtain ⟨t, rfl⟩ := List.head?_eq_some_iff.mp hmem
  intro heq
  rw [tokens_name_append h] at heq
  have htext : name ++ (c :: t).takeWhile isNameChar = name :=
    congrArg Token.text (List.cons.inj heq).1
  simp [hname] at htext

/-- What is held back begins with a brace, a digit or a minus sign. -/
theorem head_of_isLiteralRun {run : List Lexeme} (h : IsLiteralRun run)
    (hform : ∀ t, Lexeme.token t ∈ run → t.HasForm) (rest : List Char) :
    ∃ c ∈ (run.flatMap Lexeme.text ++ rest).head?, c = '{' ∨ c = '-' ∨ c.isDigit = true := by
  cases h with
  | inl h =>
    obtain ⟨t, hk, rfl⟩ := h
    have hf := hform t List.mem_cons_self
    simp only [Token.HasForm, hk] at hf
    obtain ⟨c, hc, hstart⟩ := hf
    obtain ⟨cs, hcs⟩ := List.head?_eq_some_iff.mp hc
    exact ⟨c, by simp [Lexeme.text, hcs], Or.inr hstart⟩
  | inr h =>
    obtain ⟨inner, rfl⟩ := h
    exact ⟨'{', by simp [brace, Lexeme.text], Or.inl rfl⟩

/-- Segments of cut lexemes, with literals in their runs. -/
structure IsMasking (segments : List Segment) : Prop where
  cut : IsCut (segments.flatMap Segment.lexemes)
  runs : ∀ run, .held run ∈ segments → IsLiteralRun run
  forms : ∀ t, Lexeme.token t ∈ segments.flatMap Segment.lexemes → t.HasForm

namespace IsMasking

variable {segments : List Segment} {l : Lexeme} {run : List Lexeme}

theorem of_cons {s : Segment} (h : IsMasking (s :: segments)) : IsMasking segments where
  cut := h.cut.of_append
  runs run hrun := h.runs run (List.mem_cons_of_mem _ hrun)
  forms t ht := h.forms t (by
    rw [List.flatMap_cons]
    exact List.mem_append_right _ ht)

theorem endsBefore (h : IsMasking (.kept l :: segments)) : l.EndsBefore (originalText segments) :=
  h.cut.1

theorem head_held (h : IsMasking (.held run :: segments)) :
    ∃ c ∈ (originalText (.held run :: segments)).head?, c = '{' ∨ c = '-' ∨ c.isDigit = true := by
  rw [originalText_held]
  refine head_of_isLiteralRun (h.runs run List.mem_cons_self) (fun t ht => h.forms t ?_) _
  rw [List.flatMap_cons]
  exact List.mem_append_left _ ht

end IsMasking

open Masked (textFrom)

/-- Masked text ends what the text that it replaces ends: kept lexemes begin as before, and
a placeholder begins with an underscore where there was a brace, a digit or a sign. -/
theorem endsLike_textFrom {stem : List Char} (hstem : IsStem stem) (i : Nat)
    {segments : List Segment} (h : IsMasking segments) :
    leadingDots (originalText segments) = leadingDots (textFrom stem i segments) ∧
      EndsLike (originalText segments) (textFrom stem i segments) := by
  induction segments generalizing i with
  | nil => exact ⟨rfl, ⟨fun _ => rfl, fun hl => hl, fun _ hc => Or.inl hc, fun _ => ⟨.rfl, .rfl⟩⟩⟩
  | cons s rest ih =>
    cases s with
    | kept l =>
      have hends := h.endsBefore
      obtain ⟨c, body, ht⟩ := List.exists_cons_of_ne_nil hends.text_ne_nil
      have hdots := hends.leadingDots_append (ih i h.of_cons).1
      rw [originalText_kept, textFrom]
      refine ⟨hdots, .of_leadingDots ?_ ?_ ?_ hdots⟩
      · simp [ht]
      · simp [ht]
      · exact (ih i h.of_cons).2.head.append l.text
    | held run =>
      -- A literal begins with a brace, a digit or a sign, so with neither a dot nor a line end.
      obtain ⟨c, hc, hstart⟩ := h.head_held
      obtain ⟨t, ht⟩ := List.head?_eq_some_iff.mp hc
      rw [ht, textFrom]
      have hhead := hstem.head_placeholder i (textFrom stem (i + 1) rest)
      have hdots : leadingDots (c :: t) =
          leadingDots (placeholder stem i ++ textFrom stem (i + 1) rest) := by
        rw [leadingDots_of_head_ne, leadingDots_of_head_ne]
        · rw [hhead]
          decide
        · rintro ⟨⟩
          revert hstart
          decide
      refine ⟨hdots, .of_leadingDots (fun hn => by contradiction) ?_ ?_ hdots⟩
      · intro hl
        have hline := hl c rfl
        simp only [isLineEnd, Bool.or_eq_true, beq_iff_eq] at hline
        exfalso
        cases hline with
        | inl hn => rw [hn] at hstart; revert hstart; decide
        | inr hr => rw [hr] at hstart; revert hstart; decide
      · intro d hd
        rw [hhead] at hd
        cases hd
        exact Or.inr rfl

/-- A name ends where no name character follows. -/
theorem head_of_endsBefore_name {name rest : List Char} (hn : isName name = true)
    (h : (Lexeme.token ⟨.name, name⟩).EndsBefore rest) :
    ∀ c ∈ rest.head?, isNameChar c = false := by
  intro c hc
  by_contra hname
  have hglued := head_tokens_name_ne hn ⟨c, hc, Bool.of_not_eq_false hname⟩ (tokens rest)
  exact hglued (tokens_append_of_endsBefore h)

/-- Nothing touches a run from behind exactly if a placeholder ends there. -/
theorem not_touches_held_iff {stem : List Char} (hstem : IsStem stem) (i : Nat)
    (run : List Lexeme) {rest : List Segment} (h : IsMasking rest) :
    (∀ b ∈ rest.head?, ¬ (Segment.held run).Touches b) ↔
      ∀ c ∈ (textFrom stem i rest).head?, isNameChar c = false := by
  cases rest with
  | nil => simp [textFrom]
  | cons b rest =>
    cases b with
    | kept l =>
      obtain ⟨c, body, ht⟩ := List.exists_cons_of_ne_nil h.endsBefore.text_ne_nil
      simp [textFrom, Segment.Touches, ht]
    | held run' =>
      have hunder : isNameChar '_' = true := rfl
      rw [textFrom, hstem.head_placeholder]
      simp [Segment.Touches, hunder]

/-- Nothing touches a run behind a name exactly if the name ends there. -/
theorem not_touches_name_iff {stem name : List Char} (hstem : IsStem stem) (i : Nat)
    {rest : List Segment} (hn : isName name = true)
    (h : IsMasking (.kept (.token ⟨.name, name⟩) :: rest)) :
    (∀ b ∈ rest.head?, ¬ (Segment.kept (.token ⟨.name, name⟩)).Touches b) ↔
      ∀ c ∈ (textFrom stem i rest).head?, isNameChar c = false := by
  have hend := head_of_endsBefore_name hn h.endsBefore
  cases rest with
  | nil => simp [textFrom]
  | cons b rest =>
    cases b with
    | kept l =>
      obtain ⟨c, body, ht⟩ := List.exists_cons_of_ne_nil h.of_cons.endsBefore.text_ne_nil
      rw [originalText_kept, ht] at hend
      have hc : isNameChar c = false := hend c rfl
      simp [textFrom, Segment.Touches, ht, hc]
    | held run =>
      have hunder : isNameChar '_' = true := rfl
      rw [textFrom, hstem.head_placeholder]
      simp [Segment.Touches, Lexeme.kind?, Lexeme.token?, hunder]

/-- A name in front of the rest of masked text: either it ends there, and the rest decides,
or something touches it, and it comes out longer. -/
theorem tokens_name_append_iff {name text : List Char} {ts : List Token} {next rest : Prop}
    (hn : isName name = true) (hnext : next ↔ ∀ c ∈ text.head?, isNameChar c = false)
    (hrest : tokens text = ts ↔ rest) :
    tokens (name ++ text) = ⟨.name, name⟩ :: ts ↔ next ∧ rest := by
  by_cases hc : ∀ c ∈ text.head?, isNameChar c = false
  · rw [show tokens (name ++ text) = _ from tokens_append_of_endsBefore (endsBefore_name hn hc)]
    simp only [Lexeme.token?, Option.toList, List.cons_append, List.nil_append, List.cons.injEq,
      true_and, hrest, hnext.mpr hc]
  · have hglued : ∃ c ∈ text.head?, isNameChar c = true := by
      simpa using hc
    constructor
    · intro heq
      exact absurd heq (head_tokens_name_ne hn hglued ts)
    · intro hboth
      exact absurd (hnext.mp hboth.1) hc

/-- The tokens of masked text are the expected ones exactly if nothing touches a run. Up to
the first place where two segments grow together the text is cut as expected; there, a name
comes out longer than expected. -/
theorem tokens_textFrom_iff {stem : List Char} (hstem : IsStem stem) (i : Nat)
    {segments : List Segment} (h : IsMasking segments) :
    tokens (textFrom stem i segments) = maskedTokens stem i segments ↔ Untouched segments := by
  induction segments generalizing i with
  | nil => simp [textFrom, maskedTokens, Untouched, tokens, lexemes]
  | cons s rest ih =>
    rw [Untouched, List.isChain_cons]
    cases s with
    | kept l =>
      by_cases hk : l.kind? = some .name
      · obtain ⟨name, rfl⟩ := Lexeme.exists_name_of_kind? hk
        have hn : isName name = true := h.forms ⟨.name, name⟩ (by simp [Segment.lexemes])
        exact tokens_name_append_iff hn (not_touches_name_iff hstem i hn h) (ih i h.of_cons)
      · have hends : l.EndsBefore (textFrom stem i rest) :=
          h.endsBefore.transfer (endsLike_textFrom hstem i h.of_cons).2 fun hname =>
            absurd hname hk
        have hfree : ∀ b ∈ rest.head?, ¬ (Segment.kept l).Touches b := by
          intro b _
          cases b with
          | kept l' => exact id
          | held run => exact hk
        rw [textFrom, tokens_append_of_endsBefore hends, maskedTokens, List.append_cancel_left_eq,
          ih i h.of_cons]
        exact ⟨fun hu => ⟨hfree, hu⟩, fun hu => hu.2⟩
    | held run =>
      exact tokens_name_append_iff (hstem.isName_placeholder i)
        (not_touches_held_iff hstem (i + 1) run h.of_cons) (ih (i + 1) h.of_cons)

/-! ## Documents -/

theorem isMasking_segments (document : List Char) : IsMasking (mask document).segments where
  cut := by
    rw [mask, flatMap_lexemes_segments]
    exact isCut_lexemes document
  runs _ hrun := (isSegmentation_mask document).isLiteralRun hrun
  forms t ht := by
    rw [mask, flatMap_lexemes_segments] at ht
    exact hasForm_of_mem_lexemes ht

/-- **Masking and tokens**: the segments of a document hold all its tokens, and each run that
is held back is a float or an object from brace to brace. The `i`-th placeholder stands for
the `i`-th literal. The tokens of the masked text are those of the document with one name in
place of each run, exactly if no name and no digit touches a run and no two runs touch. -/
theorem tokens_text_mask_iff (document : List Char) :
    tokens document = (mask document).segments.flatMap Segment.tokens ∧
      (∀ run, .held run ∈ (mask document).segments → IsLiteralRun run) ∧
      (∀ i, (mask document).literalOf? (placeholder (mask document).stem i) =
        (mask document).literals[i]?) ∧
      (tokens (mask document).text =
          maskedTokens (mask document).stem 0 (mask document).segments ↔
        Untouched (mask document).segments) := by
  refine ⟨?_, (isMasking_segments document).runs, ?_, ?_⟩
  · show _ = (mask document).segments.flatMap fun s => s.lexemes.filterMap Lexeme.token?
    rw [← List.filterMap_flatMap, mask, flatMap_lexemes_segments, tokens]
  · intro i
    exact literalNamed?_placeholder _ _ i
  · exact tokens_textFrom_iff (isStem_placeholderStem document) 0 (isMasking_segments document)

/-- The name behind the object is taken into its placeholder. -/
theorem tokens_text_mask_ne_of_touching :
    tokens (mask "[{x:1}y]".toList).text ≠
      maskedTokens (mask "[{x:1}y]".toList).stem 0 (mask "[{x:1}y]".toList).segments := by
  cbv
  decide

end QueryDoc.Source
