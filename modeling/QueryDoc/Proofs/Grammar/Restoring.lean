import QueryDoc.Proofs.Grammar.Filling
import QueryDoc.Proofs.Grammar.Spelling
import QueryDoc.Proofs.Source.Unmasking

/-!
# QueryDoc.Proofs.Grammar.Restoring

Texts that are written piece by piece, as built and printed documents are: tokens with
nothing but characters without meaning between them, and each literal as `layOut` writes it.

`Written.mask` says what masking makes of such a text, if it cuts it into these pieces, and
`written_unmask` what it means to write literals in the place of names. `Written.unmask_mask`
puts both together: masking such a text and writing the literals back changes nothing.
-/

namespace QueryDoc.Grammar

open Source (Lexeme Masked Piece Segment IsLiteralRun IsStem lexemes layOut layOutFrom nameHeld
  pieces placeholder placeholderStem placeholderToken literalNamed? unmaskLexeme)
open Source.Masked (textFrom)

/-! ## Solid tokens -/

/-- A token that is found in front of every text, if only a stop follows where one is needed. -/
structure IsSolid (t : Source.Token) : Prop where
  known : t.kind ≠ .unknown
  endsBefore : ∀ rest, (isOpen t.kind = true → Stops rest) → (Lexeme.token t).EndsBefore rest

theorem Token.IsExact.isSolid {t : Token} (h : t.IsExact) (hfree : ¬ t.HasBareReturn) :
    IsSolid t.toSource where
  known := by
    show t.kind.toSource ≠ .unknown
    cases t.kind <;> simp [TokenKind.toSource]
  endsBefore _ hr := (h.endsBefore hr).lexeme hfree

theorem isSolid_token {u : Terminal} (h : u.IsPlain) : IsSolid u.token where
  known := by cases u <;> simp [Terminal.token, Terminal.kind]
  endsBefore _ hr :=
    endsBefore_token h fun ho => hr (by simpa [Terminal.token, isOpen_kind] using ho)

theorem isSolid_placeholder {stem : List Char} (h : IsStem stem) (i : Nat) :
    IsSolid (placeholderToken stem i) where
  known := by simp [placeholderToken]
  endsBefore _ hr := Source.endsBefore_name (h.isName_placeholder i) fun c hc =>
    not_isNameChar_of_endsNumber ((hr rfl).endsNumber c hc)

namespace IsSolid

variable {t : Source.Token}

theorem hasForm (h : IsSolid t) : t.HasForm := (h.endsBefore [] fun _ => .nil).hasForm

theorem text_ne_nil (h : IsSolid t) : t.text ≠ [] := (h.endsBefore [] fun _ => .nil).text_ne_nil

/-- Only a mark can be a stop. -/
theorem exists_mark_of_stops (h : IsSolid t) {cs : List Char} (hs : Stops (t.text ++ cs)) :
    ∃ c, t.kind = .punctuator c ∧ c ≠ '\x7b' := by
  obtain ⟨c, body, htext⟩ := List.exists_cons_of_ne_nil h.text_ne_nil
  have hc : isStop c = true := hs c (by simp [htext])
  have hform := h.hasForm
  have hknown := h.known
  cases hk : t.kind with
  | punctuator mark =>
    simp only [Source.Token.HasForm, hk, htext] at hform
    obtain rfl : c = mark := (List.cons.inj hform.2).1
    refine ⟨c, rfl, ?_⟩
    rintro rfl
    exact absurd hc (by decide)
  | name =>
    simp only [Source.Token.HasForm, hk, htext] at hform
    have hname := forall_isNameChar_of_isName hform c List.mem_cons_self
    simp [not_isStop_of_isNameChar hname] at hc
  | int =>
    simp [Source.Token.HasForm, hk, htext] at hform
    simp [not_isStop_of_numeric hform] at hc
  | float =>
    simp [Source.Token.HasForm, hk, htext] at hform
    simp [not_isStop_of_numeric hform] at hc
  | spread =>
    simp [Source.Token.HasForm, hk, htext] at hform
    exact absurd (hform.1 ▸ hc) (by decide)
  | string =>
    simp [Source.Token.HasForm, hk, htext] at hform
    exact absurd (hform ▸ hc) (by decide)
  | unknown => exact absurd hk hknown

/-- What cannot start an item is a stop. -/
theorem stops_of_not_canStartItem (h : IsSolid t) (hs : t.kind ≠ .spread)
    (hstart : t.kind.canStartItem = false) (cs : List Char) : Stops (t.text ++ cs) := by
  have hform := h.hasForm
  have hknown := h.known
  cases hk : t.kind with
  | punctuator mark =>
    simp only [Source.Token.HasForm, hk] at hform
    rw [hform.2, List.singleton_append, stops_cons]
    refine isStop_of_isMark hform.1 ?_
    rintro rfl
    simp [hk, Source.TokenKind.canStartItem] at hstart
  | _ => simp_all [Source.TokenKind.canStartItem]

theorem canEndItem_of_isOpen (h : IsSolid t) (ho : isOpen t.kind = true) :
    t.kind.canEndItem = true := by
  cases hk : t.kind with
  | punctuator mark =>
    rw [hk] at ho
    obtain rfl : mark = '\x7d' := eq_of_beq ho
    rfl
  | spread =>
    rw [hk] at ho
    contradiction
  | unknown => exact absurd hk h.known
  | _ => rfl

end IsSolid

/-! ## Laid out literals -/

/-- The lexemes of a laid out row of tokens. -/
def laidOut (previous : Option Source.TokenKind) : List Source.Token → List Lexeme
  | [] => []
  | t :: ts =>
    (if previous.any Source.TokenKind.canEndItem && t.kind.canStartItem then
        [.ignored [','], .ignored [' ']] else []) ++
      .token t :: ((if t.kind = .punctuator ':' then [.ignored [' ']] else []) ++
        laidOut (some t.kind) ts)

theorem flatMap_text_laidOut (previous : Option Source.TokenKind) (ts : List Source.Token) :
    (laidOut previous ts).flatMap Lexeme.text = layOutFrom previous ts := by
  induction ts generalizing previous with
  | nil => rfl
  | cons t ts ih =>
    simp only [laidOut, layOutFrom, List.flatMap_append, List.flatMap_cons, ih, Lexeme.text]
    split <;> split <;> simp [Lexeme.text]

theorem filterMap_token_laidOut (previous : Option Source.TokenKind) (ts : List Source.Token) :
    (laidOut previous ts).filterMap Lexeme.token? = ts := by
  induction ts generalizing previous with
  | nil => rfl
  | cons t ts ih =>
    simp only [laidOut, List.filterMap_append, List.filterMap_cons, Lexeme.token?, ih]
    split <;> split <;> simp [Lexeme.token?, List.filterMap_cons]

/-- A laid out row is cut into its lexemes, and begins with a stop where it follows the last
token of an item. -/
theorem lexemes_layOutFrom {ts : List Source.Token} {rest : List Char}
    (hts : ∀ t ∈ ts, IsSolid t ∧ t.kind ≠ .spread) (hr : Stops rest)
    (previous : Option Source.TokenKind) :
    lexemes (layOutFrom previous ts ++ rest) = laidOut previous ts ++ lexemes rest ∧
      (previous.any Source.TokenKind.canEndItem = true →
        Stops (layOutFrom previous ts ++ rest)) := by
  induction ts generalizing previous with
  | nil => exact ⟨rfl, fun _ => hr⟩
  | cons t ts ih =>
    obtain ⟨⟨ht, hspread⟩, hts⟩ := List.forall_mem_cons.mp hts
    obtain ⟨hrest, hstops⟩ := ih hts (some t.kind)
    have hcolon : lexemes ((if t.kind = .punctuator ':' then [' '] else []) ++
        (layOutFrom (some t.kind) ts ++ rest)) =
        (if t.kind = .punctuator ':' then [.ignored [' ']] else []) ++
          (laidOut (some t.kind) ts ++ lexemes rest) := by
      split
      · rw [List.singleton_append, Source.lexemes_blank rfl, hrest]
        rfl
      · exact hrest
    -- A token that needs a stop ends an item, and no colon does.
    have hbehind : isOpen t.kind = true → Stops ((if t.kind = .punctuator ':' then [' '] else []) ++
        (layOutFrom (some t.kind) ts ++ rest)) := by
      intro ho
      have hend := ht.canEndItem_of_isOpen ho
      rw [if_neg fun hk => by rw [hk] at hend; contradiction]
      exact hstops hend
    have htoken := (ht.endsBefore _ hbehind).lexemes_append
    rw [Lexeme.text, hcolon] at htoken
    simp only [laidOut, layOutFrom, List.append_assoc, List.cons_append]
    constructor
    · split
      · rw [List.cons_append, List.cons_append, Source.lexemes_blank rfl, Source.lexemes_blank rfl]
        exact congrArg (fun ls => _ :: _ :: ls) htoken
      · exact htoken
    · intro hprevious
      rw [hprevious, Bool.true_and]
      split
      · exact stops_cons.mpr rfl
      · next hstart =>
        exact ht.stops_of_not_canStartItem hspread (Bool.not_eq_true _ ▸ hstart) _

theorem tokens_layOut {ts : List Source.Token} (h : ∀ t ∈ ts, IsSolid t ∧ t.kind ≠ .spread) :
    Source.tokens (layOut ts) = ts := by
  have hlexemes := (lexemes_layOutFrom h Stops.nil none).1
  rw [List.append_nil] at hlexemes
  rw [Source.tokens, layOut, hlexemes, List.filterMap_append, filterMap_token_laidOut]
  simp [lexemes]

/-! ## Runs of lexemes -/

/-- Lexemes that begin and end with a token. -/
def IsBounded (run : List Lexeme) : Prop :=
  (∃ t rest, run = .token t :: rest) ∧ ∃ front t, run = front ++ [.token t]

theorem isBounded_of_isLiteralRun {run : List Lexeme} (h : IsLiteralRun run) : IsBounded run := by
  obtain ⟨t, -, rfl⟩ | ⟨inner, rfl⟩ := h
  · exact ⟨⟨t, [], rfl⟩, [], t, rfl⟩
  · exact ⟨⟨_, _, rfl⟩, _, _, rfl⟩

/-- A row of tokens that is laid out as one literal: a float, or an object from brace to
brace. -/
structure IsLiteral (run : List Source.Token) : Prop where
  plain : ∀ t ∈ run, IsSolid t ∧ t.kind ≠ .spread
  first : ∃ t rest, run = t :: rest ∧ (t.kind = .float ∨ t.kind = .punctuator '\x7b')
  last : ∃ front t, run = front ++ [t] ∧ (t.kind = .float ∨ t.kind = .punctuator '\x7d')

theorem suffix_laidOut (previous : Option Source.TokenKind) (front : List Source.Token)
    {t : Source.Token} (ht : t.kind ≠ .punctuator ':') :
    [.token t] <:+ laidOut previous (front ++ [t]) := by
  induction front generalizing previous with
  | nil => simp [laidOut, ht]
  | cons u front ih =>
    obtain ⟨ls, hls⟩ := ih (some u.kind)
    rw [List.cons_append, laidOut, ← hls]
    exact ⟨_ ++ Lexeme.token u :: (_ ++ ls), by
      simp only [List.append_assoc, List.cons_append]
      rfl⟩

/-- A laid out literal ends with its last token: only a colon has a blank behind it. -/
theorem IsLiteral.isBounded_laidOut {run : List Source.Token} (h : IsLiteral run) :
    IsBounded (laidOut none run) := by
  constructor
  · obtain ⟨t, rest, rfl, -⟩ := h.first
    exact ⟨t, _, rfl⟩
  · obtain ⟨front, t, rfl, ht⟩ := h.last
    obtain ⟨ls, hls⟩ := suffix_laidOut none front (t := t) (by
      obtain ht | ht := ht <;> simp [ht])
    exact ⟨ls, t, hls.symm⟩

/-- What begins with a literal does not begin with a stop. -/
theorem IsLiteral.not_stops {run : List Source.Token} (h : IsLiteral run) (cs : List Char) :
    ¬ Stops (layOut run ++ cs) := by
  obtain ⟨t, rest, rfl, ht⟩ := h.first
  intro hs
  have hfirst : Stops (t.text ++ ((if t.kind = .punctuator ':' then [' '] else []) ++
      layOutFrom (some t.kind) rest ++ cs)) := by
    simpa [layOut, layOutFrom] using hs
  obtain ⟨c, hc, hne⟩ := (h.plain t List.mem_cons_self).1.exists_mark_of_stops hfirst
  obtain ht | ht := ht <;> grind

/-- Bounded runs at the front of the same lexemes are equal if their tokens are. -/
theorem eq_of_isBounded {r s : List Lexeme} {ls ms : List Lexeme} (hr : IsBounded r)
    (hs : IsBounded s) (ht : r.filterMap Lexeme.token? = s.filterMap Lexeme.token?)
    (h : r ++ ls = s ++ ms) : r = s := by
  -- What one run has more than the other holds no token, but ends with one.
  have key {r x : List Lexeme} (hrx : IsBounded (r ++ x))
      (hx : x.filterMap Lexeme.token? = []) : x = [] := by
    obtain ⟨-, front, t, hlast⟩ := hrx
    induction x using List.reverseRecOn with
    | nil => rfl
    | append_singleton x l _ =>
      rw [← List.append_assoc] at hlast
      obtain rfl : l = .token t := by simpa using (List.append_inj' hlast rfl).2
      simp [Lexeme.token?] at hx
  obtain ⟨x, rfl, -⟩ | ⟨x, rfl, -⟩ := List.append_eq_append_iff.mp h
  · rw [key hs (by simpa using ht.symm), List.append_nil]
  · rw [key hr (by simpa using ht), List.append_nil]

/-- Each segment has lexemes, if no run begins or ends between tokens. -/
theorem flatMap_lexemes_ne_nil {s : Segment} {rest : List Segment}
    (h : ∀ run, .held run ∈ s :: rest → IsBounded run) :
    (s :: rest).flatMap Segment.lexemes ≠ [] := by
  cases s with
  | kept l => simp [Segment.lexemes]
  | held run =>
    obtain ⟨⟨t, ls, rfl⟩, -⟩ := h run List.mem_cons_self
    simp [Segment.lexemes]

/-- The pieces tell apart whether a lexeme stands outside the runs or begins one. -/
theorem piece?_ne_of_lexemes {l : Lexeme} {run : List Lexeme} {ss rs : List Segment}
    (hb : IsBounded run)
    (hlexemes : l :: ss.flatMap Segment.lexemes = run ++ rs.flatMap Segment.lexemes) :
    (Segment.kept l :: ss).filterMap Segment.piece? ≠
      (Segment.held run :: rs).filterMap Segment.piece? := by
  obtain ⟨⟨t, ls, rfl⟩, -⟩ := hb
  obtain rfl : l = .token t := (List.cons.inj hlexemes).1
  simp [Segment.piece?, Lexeme.token?]

/-- Lexemes are cut into segments in one way only, if the pieces are known and no run begins
or ends between tokens. -/
theorem segments_unique {ss rs : List Segment} (hs : ∀ run, .held run ∈ ss → IsBounded run)
    (hr : ∀ run, .held run ∈ rs → IsBounded run)
    (hlexemes : ss.flatMap Segment.lexemes = rs.flatMap Segment.lexemes)
    (hpieces : ss.filterMap Segment.piece? = rs.filterMap Segment.piece?) : ss = rs := by
  induction ss generalizing rs with
  | nil =>
    cases rs with
    | nil => rfl
    | cons r rs => exact absurd hlexemes.symm (flatMap_lexemes_ne_nil hr)
  | cons s ss ih =>
    cases rs with
    | nil => exact absurd hlexemes (flatMap_lexemes_ne_nil hs)
    | cons r rs =>
      have hs' : ∀ run, .held run ∈ ss → IsBounded run :=
        fun run h => hs run (List.mem_cons_of_mem _ h)
      have hr' : ∀ run, .held run ∈ rs → IsBounded run :=
        fun run h => hr run (List.mem_cons_of_mem _ h)
      simp only [List.flatMap_cons] at hlexemes
      cases s with
      | kept l =>
        cases r with
        | kept m =>
          obtain ⟨rfl, hrest⟩ := List.cons.inj hlexemes
          rw [ih hs' hr' hrest]
          cases l with
          | ignored text => simpa [List.filterMap_cons, Segment.piece?, Lexeme.token?] using hpieces
          | token t => simpa [List.filterMap_cons, Segment.piece?, Lexeme.token?] using hpieces
        | held run =>
          exact absurd hpieces (piece?_ne_of_lexemes (hr run List.mem_cons_self) hlexemes)
      | held run =>
        cases r with
        | kept m =>
          exact absurd hpieces.symm
            (piece?_ne_of_lexemes (hs run List.mem_cons_self) hlexemes.symm)
        | held run' =>
          simp only [List.filterMap_cons, Segment.piece?, List.cons.injEq, Piece.held.injEq]
            at hpieces
          simp only [Segment.lexemes] at hlexemes
          obtain rfl := eq_of_isBounded (hs run List.mem_cons_self) (hr run' List.mem_cons_self)
            hpieces.1 hlexemes
          rw [ih hs' hr' (List.append_cancel_left hlexemes) hpieces.2]

/-! ## Written texts -/

/-- A text that is written piece by piece: solid tokens and laid out literals, with nothing
but characters without meaning between them, and a stop behind each that needs one. -/
inductive Written : List Char → List (Piece Source.Token) → Prop where
  | nil : Written [] []
  | blank {c : Char} {cs : List Char} {ps : List (Piece Source.Token)}
    (hc : isIgnorable c = true) (h : Written cs ps) : Written (c :: cs) ps
  | kept {t : Source.Token} {cs : List Char} {ps : List (Piece Source.Token)} (ht : IsSolid t)
    (hr : isOpen t.kind = true → Stops cs) (h : Written cs ps) :
    Written (t.text ++ cs) (.kept t :: ps)
  | held {run : List Source.Token} {cs : List Char} {ps : List (Piece Source.Token)}
    (hrun : IsLiteral run) (hr : Stops cs) (h : Written cs ps) :
    Written (layOut run ++ cs) (.held run :: ps)

/-- The segments of a written text: each run is one laid out literal, and with names in place
of the runs the text is written again. -/
structure SegmentsOf (cs : List Char) (ps : List (Piece Source.Token)) (ss : List Segment) :
    Prop where
  lexemes : ss.flatMap Segment.lexemes = lexemes cs
  pieces : ss.filterMap Segment.piece? = ps
  bounded : ∀ run, .held run ∈ ss → IsBounded run
  laidOut : ∀ run, .held run ∈ ss →
    run.flatMap Lexeme.text = layOut (run.filterMap Lexeme.token?)
  named : ∀ stem, IsStem stem → ∀ i,
    Written (textFrom stem i ss) ((nameHeld (placeholderToken stem) i ps).map .kept) ∧
      (Stops cs → Stops (textFrom stem i ss))

namespace Written

variable {cs ds : List Char} {ps qs : List (Piece Source.Token)}

/-- Texts stand one behind the other if a stop separates them. -/
theorem append (h : Written cs ps) (h' : Written ds qs) (hd : Stops ds) :
    Written (cs ++ ds) (ps ++ qs) := by
  have hstops {cs : List Char} (hs : Stops cs) : Stops (cs ++ ds) := by
    cases cs with
    | nil => exact hd
    | cons c cs => exact hs
  induction h with
  | nil => exact h'
  | blank hc _ ih => exact .blank hc ih
  | kept ht hr _ ih =>
    rw [List.append_assoc]
    exact .kept ht (fun ho => hstops (hr ho)) ih
  | held hrun hr _ ih =>
    rw [List.append_assoc]
    exact .held hrun (hstops hr) ih

theorem exists_segments (h : Written cs ps) : ∃ ss, SegmentsOf cs ps ss := by
  induction h with
  | nil => exact ⟨[], by simp [Source.lexemes], rfl, by simp, by simp, fun _ _ _ => ⟨.nil, id⟩⟩
  | @blank c cs ps hc h ih =>
    obtain ⟨ss, hss⟩ := ih
    refine ⟨.kept (.ignored [c]) :: ss, ?_, hss.pieces, ?_, ?_, fun stem hstem i => ?_⟩
    · rw [Source.lexemes_blank hc, List.flatMap_cons, hss.lexemes]
      rfl
    · simpa using hss.bounded
    · simpa using hss.laidOut
    · exact ⟨.blank hc (hss.named stem hstem i).1, id⟩
  | @kept t cs ps ht hr h ih =>
    obtain ⟨ss, hss⟩ := ih
    have hlexemes := (ht.endsBefore cs hr).lexemes_append
    refine ⟨.kept (.token t) :: ss, ?_, ?_, ?_, ?_, fun stem hstem i => ?_⟩
    · rw [List.flatMap_cons, hss.lexemes]
      exact hlexemes.symm
    · simp [Segment.piece?, Lexeme.token?, hss.pieces]
    · simpa using hss.bounded
    · simpa using hss.laidOut
    · obtain ⟨hnamed, hstops⟩ := hss.named stem hstem i
      refine ⟨.kept ht (fun ho => hstops (hr ho)) hnamed, fun hs => ?_⟩
      obtain ⟨c, body, htext⟩ := List.exists_cons_of_ne_nil ht.text_ne_nil
      exact hs.of_head (by simp [textFrom, Lexeme.text, htext])
  | @held run cs ps hrun hr h ih =>
    obtain ⟨ss, hss⟩ := ih
    refine ⟨.held (laidOut none run) :: ss, ?_, ?_, ?_, ?_, fun stem hstem i => ?_⟩
    · rw [List.flatMap_cons, hss.lexemes]
      exact (lexemes_layOutFrom hrun.plain hr none).1.symm
    · simp [Segment.piece?, filterMap_token_laidOut, hss.pieces]
    · simpa [hrun.isBounded_laidOut] using hss.bounded
    · simpa [flatMap_text_laidOut, filterMap_token_laidOut, layOut] using hss.laidOut
    · obtain ⟨hnamed, hstops⟩ := hss.named stem hstem (i + 1)
      exact ⟨.kept (isSolid_placeholder hstem i) (fun _ => hstops hr) hnamed,
        fun hs => absurd hs (hrun.not_stops cs)⟩

theorem isLiteral (h : Written cs ps) {run : List Source.Token} (hrun : .held run ∈ ps) :
    IsLiteral run := by
  induction h with
  | nil => contradiction
  | blank _ _ ih => exact ih hrun
  | kept _ _ _ ih => exact ih (by simpa using hrun)
  | held hlit _ _ ih =>
    cases List.mem_cons.mp hrun with
    | inl heq => exact Piece.held.inj heq ▸ hlit
    | inr hmem => exact ih hmem

/-- The tokens of a written text. -/
theorem tokens (h : Written cs ps) : Source.tokens cs = ps.flatMap Piece.all := by
  obtain ⟨ss, hss⟩ := h.exists_segments
  rw [Source.tokens, ← hss.lexemes, ← hss.pieces]
  clear hss
  induction ss with
  | nil => rfl
  | cons s ss ih =>
    cases s with
    | kept l =>
      cases l <;> simp_all [Segment.lexemes, Segment.piece?, Lexeme.token?, Piece.all,
        List.filterMap_cons]
    | held run => simp_all [Segment.lexemes, Segment.piece?, Piece.all]

/-- Masking cuts a written text into its pieces if it cuts their tokens so. -/
theorem segmentsOf_mask (h : Written cs ps)
    (hp : pieces Source.Token.kind (ps.flatMap Piece.all) = ps) :
    SegmentsOf cs ps (Source.mask cs).segments := by
  obtain ⟨ss, hss⟩ := h.exists_segments
  have heq : ss = (Source.mask cs).segments := by
    refine segments_unique hss.bounded
      (fun run hrun => isBounded_of_isLiteralRun ((Source.isMasking_segments cs).runs run hrun))
      ?_ ?_
    · rw [hss.lexemes, Source.mask, Source.flatMap_lexemes_segments]
    · rw [hss.pieces, Source.filterMap_piece_mask, h.tokens, hp]
  exact heq ▸ hss

/-- **Masking a written text** writes a name in place of each literal. -/
theorem mask (h : Written cs ps) (hp : pieces Source.Token.kind (ps.flatMap Piece.all) = ps) :
    Written (Source.mask cs).text
      ((nameHeld (placeholderToken (placeholderStem cs)) 0 ps).map .kept) :=
  ((h.segmentsOf_mask hp).named _ (Source.isStem_placeholderStem cs) 0).1

/-- In a written text nothing touches its literals. -/
theorem untouched (h : Written cs ps) (hp : pieces Source.Token.kind (ps.flatMap Piece.all) = ps) :
    Source.Untouched (Source.mask cs).segments := by
  refine (Source.tokens_textFrom_iff (Source.isStem_placeholderStem cs) 0
    (Source.isMasking_segments cs)).mp ?_
  have hrow := Source.maskedTokens_mask cs
  rw [h.tokens, hp] at hrow
  have htokens := (h.mask hp).tokens
  rw [List.flatMap_map] at htokens
  exact htokens.trans ((List.flatMap_singleton' _).trans hrow.symm)

/-- **Restoring a written text**: masking it and writing the literals back changes nothing. -/
theorem unmask_mask (h : Written cs ps)
    (hp : pieces Source.Token.kind (ps.flatMap Piece.all) = ps) :
    (Source.mask cs).unmask (Source.mask cs).text = cs := by
  have hlaid : (Source.mask cs).segments.flatMap Segment.laidOutText =
      (Source.mask cs).segments.flatMap fun s => s.lexemes.flatMap Lexeme.text := by
    refine List.flatMap_congr fun s hs => ?_
    cases s with
    | kept l => simp [Segment.laidOutText, Segment.lexemes]
    | held run => exact ((h.segmentsOf_mask hp).laidOut run hs).symm
  rw [Source.unmask_text_mask (h.untouched hp), hlaid, ← List.flatMap_assoc,
    (h.segmentsOf_mask hp).lexemes, Source.flatMap_text_lexemes]

end Written

/-! ## Writing literals back -/

/-- What a token becomes when literals are written in place of those names that stand for one. -/
def restored (σ : Source.Token → Option (List Source.Token)) (t : Source.Token) :
    Piece Source.Token :=
  match σ t with
  | some run => .held run
  | none => .kept t

/-- **Writing literals back** into a text without any writes the literals as pieces of it. -/
theorem written_unmask {stem : List Char} {literals : List (List Char)}
    {σ : Source.Token → Option (List Source.Token)} {cs : List Char} {ts : List Source.Token}
    (h : Written cs (ts.map .kept))
    (hl : ∀ t ∈ ts, unmaskLexeme stem literals (.token t) = ((σ t).map layOut).getD t.text)
    (hσ : ∀ t ∈ ts, ∀ run, σ t = some run → t.kind = .name ∧ IsLiteral run) :
    Written ((lexemes cs).flatMap (unmaskLexeme stem literals)) (ts.map (restored σ)) ∧
      (Stops cs → Stops ((lexemes cs).flatMap (unmaskLexeme stem literals))) := by
  generalize hps : ts.map Piece.kept = ps at h
  induction h generalizing ts with
  | nil =>
    obtain rfl : ts = [] := by simpa using hps
    simpa [lexemes] using Written.nil
  | blank hc h ih =>
    obtain ⟨hrest, -⟩ := ih hl hσ hps
    rw [Source.lexemes_blank hc, List.flatMap_cons]
    exact ⟨.blank hc hrest, id⟩
  | held hrun hr h ih => cases ts <;> simp at hps
  | @kept t cs ps ht hr h ih =>
    obtain ⟨u, ts, rfl, hut, rfl⟩ := List.map_eq_cons_iff.mp hps
    obtain rfl : u = t := by simpa using hut
    obtain ⟨hlt, hlts⟩ := List.forall_mem_cons.mp hl
    obtain ⟨hσt, hσts⟩ := List.forall_mem_cons.mp hσ
    obtain ⟨hrest, hstops⟩ := ih hlts hσts rfl
    have hlexemes := (ht.endsBefore cs hr).lexemes_append
    rw [Lexeme.text] at hlexemes
    rw [hlexemes, List.flatMap_cons, hlt, List.map_cons, restored]
    cases hu : σ u with
    | none =>
      refine ⟨.kept ht (fun ho => hstops (hr ho)) hrest, fun hs => ?_⟩
      obtain ⟨c, body, htext⟩ := List.exists_cons_of_ne_nil ht.text_ne_nil
      exact hs.of_head (by simp [htext])
    | some run =>
      obtain ⟨hname, hrun⟩ := hσt run hu
      refine ⟨.held hrun (hstops (hr (by rw [hname]; rfl))) hrest, fun hs => ?_⟩
      obtain ⟨c, hc, -⟩ := ht.exists_mark_of_stops hs
      simp [hname] at hc

end QueryDoc.Grammar
