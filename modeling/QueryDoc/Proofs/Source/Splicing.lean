import QueryDoc.Proofs.Source.Gaps
import QueryDoc.Proofs.Source.Unmasking

/-!
# QueryDoc.Proofs.Source.Splicing

Masking and unmasking by bytes: whatever stays is copied from the text between two bytes, and
there is no copy if they do not lie in the text, in this order and between characters
(`slice?`). Of an object value that is not closed yet masking remembers only which token opened
it. Brackets that do not match may close the object without an end to its run; the number is
then kept until some other object value closes.

`maskBytes?_eq_some` says that no copy fails, whatever the brackets: between the token that
opened a run and the one that ends it nothing else is held back, so that the runs stand one
behind the other.
-/

namespace QueryDoc.Source

/-! ## Copying with edits -/

/-- A text to be written in place of some bytes. -/
structure Edit where
  span : Span
  text : List Char
deriving DecidableEq, Repr

/-- A text from byte `copied` on, with all edits made. -/
def splice? (source : List Char) (copied : Nat) : List Edit → Option (List Char)
  | [] => slice? copied (byteSize source) source
  | e :: es => do
    let kept ← slice? copied e.span.start source
    let rest ← splice? source e.span.stop es
    return kept ++ e.text ++ rest

/-- A part of a text, and what to write in its place, if anything. -/
structure Passage where
  old : List Char
  new? : Option (List Char)

def Passage.text (p : Passage) : List Char := p.new?.getD p.old

/-- The edits to a row of passages of which the first one begins at the byte `start`. -/
def editsFrom (start : Nat) : List Passage → List Edit
  | [] => []
  | p :: ps =>
    (p.new?.map fun text => ⟨⟨start, start + byteSize p.old⟩, text⟩).toList ++
      editsFrom (start + byteSize p.old) ps

/-- Edits to passages never leave a text. What stands behind the last edit is still to be
copied. -/
theorem splice?_editsFrom {source : List Char} (front kept : List Char) (ps : List Passage)
    (h : source = front ++ (kept ++ ps.flatMap Passage.old)) :
    splice? source (byteSize front) (editsFrom (byteSize (front ++ kept)) ps) =
      some (kept ++ ps.flatMap Passage.text) := by
  induction ps generalizing front kept with
  | nil =>
    rw [List.flatMap_nil, List.append_nil] at h ⊢
    refine slice?_eq_some_iff.mpr ⟨front, [], ?_, rfl, congrArg byteSize h⟩
    rw [List.append_nil, h]
  | cons p ps ih =>
    obtain ⟨old, new?⟩ := p
    rw [List.flatMap_cons] at h
    cases new? with
    | none =>
      have hrest := ih front (kept ++ old) (by rw [h, List.append_assoc kept])
      rw [← List.append_assoc, byteSize_append _ old] at hrest
      rw [List.flatMap_cons, ← List.append_assoc]
      exact hrest
    | some new =>
      have hrest := ih (front ++ kept ++ old) []
        (by rw [h, List.append_assoc, List.append_assoc]; rfl)
      rw [List.append_nil, byteSize_append _ old] at hrest
      have hkept : slice? (byteSize front) (byteSize (front ++ kept)) source = some kept :=
        slice?_eq_some_iff.mpr ⟨front, _, h, rfl, rfl⟩
      rw [List.flatMap_cons, ← List.append_assoc]
      simp only [editsFrom, Option.map_some, Option.toList_some, List.singleton_append, splice?,
        hkept, hrest, Option.bind_eq_bind, Option.bind_some, List.nil_append]
      rfl

/-! ## Runs by their ends -/

/-- A run of tokens, by the numbers of its first and its last one. -/
structure Range where
  first : Nat
  last : Nat
deriving DecidableEq, Repr

/-- The tokens of a run. -/
def run? (as : List α) (r : Range) : Option (List α) :=
  if r.first ≤ r.last ∧ r.last < as.length then some ((as.take (r.last + 1)).drop r.first)
  else none

/-- The runs that are held back, from the `i`-th token on. `opened` is the number of the token
that opened the object value whose end is looked for. -/
def heldRangesFrom (nesting : List Bracket) (previous : Option TokenKind) (opened : Option Nat)
    (i : Nat) : List TokenKind → List Range
  | [] => []
  | kind :: rest =>
    let (role, nesting) := roleOf nesting previous kind
    match role, opened with
    | .opensObject, none => heldRangesFrom nesting (some kind) (some i) (i + 1) rest
    | .closesOutermost, some first =>
      ⟨first, i⟩ :: heldRangesFrom nesting (some kind) none (i + 1) rest
    | .float, none => ⟨i, i⟩ :: heldRangesFrom nesting (some kind) none (i + 1) rest
    | _, opened => heldRangesFrom nesting (some kind) opened (i + 1) rest

theorem run?_append {as : List α} {k : Nat} (hk : k ≤ as.length) (a : α) (bs : List α) :
    run? (as ++ a :: bs) ⟨k, as.length⟩ = some (as.drop k ++ [a]) := by
  have htake : (as ++ a :: bs).take (as.length + 1) = as ++ [a] := by
    rw [List.take_length_add_append, List.take_succ_cons, List.take_zero]
  rw [run?, if_pos ⟨hk, by simp⟩, htake, List.drop_append_of_le_length hk]

theorem run?_map (f : α → β) (as : List α) (r : Range) :
    run? (as.map f) r = (run? as r).map (List.map f) := by
  unfold run?
  rw [List.length_map]
  split
  · rw [Option.map_some, List.map_drop, List.map_take]
  · rfl

theorem heldRuns_map_kept (as : List α) : heldRuns (as.map Piece.kept) = [] := by
  induction as with
  | nil => rfl
  | cons a as ih => exact ih

/-- **Stale ends**: the tokens from the one that opened an object are those that have been held
back for it, as no other run has ended since. -/
theorem forall₂_heldRangesFrom (kind : α → TokenKind) (nesting : List Bracket)
    (previous : Option TokenKind) (opened : Option Nat) (as : List α)
    (ho : ∀ k ∈ opened, k ≤ as.length) (bs : List α) :
    List.Forall₂ (fun r run => run? (as ++ bs) r = some run)
      (heldRangesFrom nesting previous opened as.length (bs.map kind))
      (heldRuns (piecesFrom kind nesting previous (opened.map fun k => (as.drop k).reverse)
        bs)) := by
  induction bs generalizing nesting previous opened as with
  | nil =>
    rw [piecesFrom, heldRuns_map_kept]
    exact .nil
  | cons b bs ih =>
    -- The row with `b` taken over to its front.
    have hrest (nesting : List Bracket) (opened : Option Nat) (pending : Option (List α))
        (ho : ∀ k ∈ opened, k ≤ (as ++ [b]).length)
        (hp : (opened.map fun k => ((as ++ [b]).drop k).reverse) = pending) :
        List.Forall₂ (fun r run => run? (as ++ b :: bs) r = some run)
          (heldRangesFrom nesting (some (kind b)) opened (as.length + 1) (bs.map kind))
          (heldRuns (piecesFrom kind nesting (some (kind b)) pending bs)) := by
      have hih := ih nesting (some (kind b)) opened (as ++ [b]) ho
      rwa [hp, List.length_append, List.append_assoc] at hih
    rw [List.map_cons]
    unfold heldRangesFrom piecesFrom
    obtain ⟨role, nesting⟩ := roleOf nesting previous (kind b)
    have hnone := hrest nesting none none (by simp) rfl
    cases opened with
    | none =>
      have hone : run? (as ++ b :: bs) ⟨as.length, as.length⟩ = some [b] := by
        rw [run?_append le_rfl, List.drop_length, List.nil_append]
      cases role with
      | opensObject => exact hrest nesting (some as.length) (some [b]) (by simp) (by simp)
      | closesOutermost => exact hnone
      | float => exact .cons hone hnone
      | other => exact hnone
    | some k =>
      have hk : k ≤ as.length := ho k rfl
      have hdrop : (as ++ [b]).drop k = as.drop k ++ [b] := List.drop_append_of_le_length hk
      have hsome := hrest nesting (some k) (some (b :: (as.drop k).reverse))
        (by simp; omega) (by simp [hdrop])
      cases role with
      | opensObject => exact hsome
      | closesOutermost =>
        refine .cons ?_ hnone
        rw [run?_append hk, List.reverse_cons, List.reverse_reverse]
      | float => exact hsome
      | other => exact hsome

/-- The parenthesis closes the first object, so the run ends with the second one. -/
example : heldRangesFrom [] none none 0 ((tokens "a:\x7b)b:\x7b\x7d".toList).map Token.kind) =
    [⟨2, 7⟩] := by
  cbv

/-! ## Runs by their places -/

theorem placeTokens_append (start : Nat) (ls ms : List Lexeme) :
    placeTokens start (ls ++ ms) =
      placeTokens start ls ++ placeTokens (start + byteSize (ls.flatMap Lexeme.text)) ms := by
  induction ls generalizing start with
  | nil => rfl
  | cons l ls ih =>
    cases l <;>
      simp [placeTokens, Lexeme.text, List.flatMap_cons, byteSize_append, Nat.add_assoc, ih]

/-- The tokens of each run that is held back, in segments of which the first one begins at the
byte `start`. -/
def heldPlaces (start : Nat) : List Segment → List (List PlacedToken)
  | [] => []
  | .kept l :: rest => heldPlaces (start + byteSize l.text) rest
  | .held run :: rest =>
    placeTokens start run :: heldPlaces (start + byteSize (run.flatMap Lexeme.text)) rest

theorem heldPlaces_map_kept (start : Nat) (ls : List Lexeme) :
    heldPlaces start (ls.map .kept) = [] := by
  induction ls generalizing start with
  | nil => rfl
  | cons l ls ih => exact ih _

/-- Tokens keep their places when a text is cut into segments. A pending run has begun at
`start`. -/
theorem heldPlaces_segmentsFrom (nesting : List Bracket) (previous : Option TokenKind)
    (pending : Option (List Lexeme)) (start : Nat) (ls : List Lexeme) :
    heldPlaces start (segmentsFrom nesting previous pending ls) =
      heldRuns (piecesFrom (fun p => p.token.kind) nesting previous
        (pending.map fun run => (placeTokens start run.reverse).reverse)
        (placeTokens (start + byteSize ((pending.getD []).reverse.flatMap Lexeme.text)) ls)) := by
  induction ls generalizing nesting previous pending start with
  | nil => rw [segmentsFrom, heldPlaces_map_kept, placeTokens, piecesFrom, heldRuns_map_kept]
  | cons l ls ih =>
    cases l with
    | ignored text =>
      cases pending <;>
        simp [segmentsFrom, heldPlaces, placeTokens, placeTokens_append, byteSize_append,
          byteSize, Lexeme.text, Nat.add_assoc, ih]
    | token t =>
      unfold segmentsFrom
      rw [placeTokens]
      unfold piecesFrom
      obtain ⟨role, nesting⟩ := roleOf nesting previous t.kind
      cases role <;> cases pending <;>
        simp [heldPlaces, heldRuns, placeTokens, placeTokens_append, byteSize_append, byteSize,
          Lexeme.text, Nat.add_assoc, ih]

/-- A run that is held back is a run of the tokens. -/
theorem isInfix_of_mem_heldPlaces (start : Nat) (segments : List Segment) :
    ∀ ps ∈ heldPlaces start segments,
      ps <:+: placeTokens start (segments.flatMap Segment.lexemes) := by
  induction segments generalizing start with
  | nil => exact List.forall_mem_nil _
  | cons s segments ih =>
    have hbehind {stop : Nat} (ps : List PlacedToken) (hps : ps ∈ heldPlaces stop segments)
        (front : List PlacedToken) :
        ps <:+: front ++ placeTokens stop (segments.flatMap Segment.lexemes) :=
      (ih stop ps hps).trans (List.suffix_append _ _).isInfix
    rw [List.flatMap_cons, placeTokens_append]
    cases s with
    | kept l =>
      intro ps hps
      rw [heldPlaces, ← List.append_nil l.text] at hps
      exact hbehind ps hps _
    | held run =>
      refine List.forall_mem_cons.mpr ⟨(List.prefix_append _ _).isInfix, fun ps hps => ?_⟩
      exact hbehind ps hps _

theorem heldPlaces_mask (document : List Char) :
    heldPlaces 0 (mask document).segments =
      heldRuns (pieces (fun p => p.token.kind) (placeTokens 0 (lexemes document))) :=
  heldPlaces_segmentsFrom [] none none 0 (lexemes document)

/-! ## Laying out slices -/

/-- `layOutFrom` with each token's text taken from the bytes that it covers. -/
def layOutFrom? (source : List Char) (previous : Option TokenKind) :
    List ByteToken → Option (List Char)
  | [] => some []
  | t :: rest => do
    let text ← slice? t.start t.stop source
    let behind ← layOutFrom? source (some t.kind) rest
    return (if previous.any TokenKind.canEndItem && t.kind.canStartItem then [',', ' '] else []) ++
      text ++ (if t.kind = .punctuator ':' then [' '] else []) ++ behind

/-- The tokens of a value on one line, from the bytes that they cover. -/
def layOut? (source : List Char) (ts : List ByteToken) : Option (List Char) :=
  layOutFrom? source none ts

theorem layOutFrom?_extent {source : List Char} {ps : List PlacedToken}
    (h : ∀ p ∈ ps, p.Covers source) (previous : Option TokenKind) :
    layOutFrom? source previous (ps.map PlacedToken.extent) =
      some (layOutFrom previous (ps.map PlacedToken.token)) := by
  induction ps generalizing previous with
  | nil => rfl
  | cons p ps ih =>
    obtain ⟨hp, hps⟩ := List.forall_mem_cons.mp h
    have hslice := PlacedToken.covers_iff.mp hp
    simp only [List.map_cons, layOutFrom?, PlacedToken.extent, hslice, ih hps, layOutFrom,
      Option.bind_eq_bind, Option.bind_some]
    rfl

/-! ## What is held back -/

/-- A literal that is held back, with the bytes in place of which its placeholder stands. -/
structure Held where
  span : Span
  literal : List Char
deriving DecidableEq, Repr

/-- A run of tokens as it is held back. -/
def heldOf? (source : List Char) (run : List ByteToken) : Option Held := do
  let first ← run.head?
  let last ← run.getLast?
  let literal ← layOut? source run
  return ⟨⟨first.start, last.stop⟩, literal⟩

/-- A float, or tokens from an opening brace to a closing one, with the bytes from the start of
the first one to the end of the last one. -/
inductive IsLiteralAt : Span → List PlacedToken → Prop where
  | float {p : PlacedToken} (hp : p.token.kind = .float) : IsLiteralAt ⟨p.start, p.stop⟩ [p]
  | object {p q : PlacedToken} {inner : List PlacedToken} (hp : p.token.kind = .punctuator '{')
      (hq : q.token.kind = .punctuator '}') : IsLiteralAt ⟨p.start, q.stop⟩ (p :: inner ++ [q])

theorem isLiteralAt_placeTokens {run : List Lexeme} (h : IsLiteralRun run) (start : Nat) :
    IsLiteralAt ⟨start, start + byteSize (run.flatMap Lexeme.text)⟩ (placeTokens start run) := by
  obtain ⟨t, hk, rfl⟩ | ⟨inner, rfl⟩ := h
  · rw [List.flatMap_singleton]
    exact .float (p := ⟨t, start, _⟩) hk
  · rw [placeTokens_append, List.flatMap_append, byteSize_append, ← Nat.add_assoc]
    exact .object (p := ⟨_, start, _⟩) (q := ⟨_, _, _⟩) rfl rfl

theorem heldOf?_extent {source : List Char} {span : Span} {ps : List PlacedToken}
    (h : IsLiteralAt span ps) (hps : ∀ p ∈ ps, p.Covers source) :
    heldOf? source (ps.map PlacedToken.extent) =
      some ⟨span, layOut (ps.map PlacedToken.token)⟩ := by
  have hlayout : layOut? source (ps.map PlacedToken.extent) =
      some (layOut (ps.map PlacedToken.token)) := layOutFrom?_extent hps none
  rw [heldOf?, hlayout]
  cases h with
  | float => rfl
  | object =>
    rw [List.head?_map, List.getLast?_map, List.getLast?_concat]
    rfl

/-- The `i`-th placeholder and the next ones in place of what is held back. -/
def placeholderEdits (stem : List Char) (i : Nat) : List Held → List Edit
  | [] => []
  | h :: hs => ⟨h.span, placeholder stem i⟩ :: placeholderEdits stem (i + 1) hs

/-- What is held back of a document, and the masked text. -/
def maskBytes? (document : List Char) : Option (List Held × List Char) := do
  let ts ← byteTokens? 0 (bytesOf document)
  let runs ← (heldRangesFrom [] none none 0 (ts.map ByteToken.kind)).mapM (run? ts)
  let held ← runs.mapM (heldOf? document)
  let text ← splice? document 0 (placeholderEdits (placeholderStem document) 0 held)
  return (held, text)

/-- What is held back in segments of which the first one begins at the byte `start`. -/
def heldFrom (start : Nat) : List Segment → List Held
  | [] => []
  | .kept l :: rest => heldFrom (start + byteSize l.text) rest
  | .held run :: rest =>
    let stop := start + byteSize (run.flatMap Lexeme.text)
    ⟨⟨start, stop⟩, layOut (run.filterMap Lexeme.token?)⟩ :: heldFrom stop rest

theorem forall₂_heldFrom (start : Nat) {segments : List Segment}
    (h : ∀ run, .held run ∈ segments → IsLiteralRun run) :
    List.Forall₂ (fun h ps => IsLiteralAt h.span ps ∧ h.literal = layOut (ps.map PlacedToken.token))
      (heldFrom start segments) (heldPlaces start segments) := by
  induction segments generalizing start with
  | nil => exact .nil
  | cons s segments ih =>
    have hrest (start : Nat) := ih start fun run hrun => h run (List.mem_cons_of_mem _ hrun)
    cases s with
    | kept l => exact hrest _
    | held run =>
      refine .cons ⟨isLiteralAt_placeTokens (h run List.mem_cons_self) start, ?_⟩ (hrest _)
      rw [map_token_placeTokens]

theorem literals_eq_heldFrom (stem : List Char) (start : Nat) (segments : List Segment) :
    (Masked.mk stem segments).literals = (heldFrom start segments).map Held.literal := by
  unfold Masked.literals
  induction segments generalizing start with
  | nil => rfl
  | cons s segments ih =>
    cases s with
    | kept l => exact ih _
    | held run => exact congrArg (List.cons _) (ih _)

theorem le_start_of_mem_heldFrom {start : Nat} {segments : List Segment} :
    ∀ h ∈ heldFrom start segments, start ≤ h.span.start := by
  induction segments generalizing start with
  | nil => exact List.forall_mem_nil _
  | cons s segments ih =>
    cases s with
    | kept l => exact fun h hh => (Nat.le_add_right _ _).trans (ih h hh)
    | held run =>
      exact List.forall_mem_cons.mpr ⟨le_rfl, fun h hh => (Nat.le_add_right _ _).trans (ih h hh)⟩

theorem pairwise_heldFrom (start : Nat) (segments : List Segment) :
    (heldFrom start segments).Pairwise fun g h => g.span.stop ≤ h.span.start := by
  induction segments generalizing start with
  | nil => exact .nil
  | cons s segments ih =>
    cases s with
    | kept l => exact ih _
    | held run => exact .cons le_start_of_mem_heldFrom (ih _)

/-- The passages of a document, with placeholders in place of what is held back. -/
def maskPassages (stem : List Char) (i : Nat) : List Segment → List Passage
  | [] => []
  | .kept l :: rest => ⟨l.text, none⟩ :: maskPassages stem i rest
  | .held run :: rest =>
    ⟨run.flatMap Lexeme.text, some (placeholder stem i)⟩ :: maskPassages stem (i + 1) rest

theorem flatMap_old_maskPassages (stem : List Char) (i : Nat) (segments : List Segment) :
    (maskPassages stem i segments).flatMap Passage.old = originalText segments := by
  induction segments generalizing i with
  | nil => rfl
  | cons s segments ih => cases s <;> simp [maskPassages, ih]

theorem flatMap_text_maskPassages (stem : List Char) (i : Nat) (segments : List Segment) :
    (maskPassages stem i segments).flatMap Passage.text = Masked.textFrom stem i segments := by
  induction segments generalizing i with
  | nil => rfl
  | cons s segments ih => cases s <;> simp [maskPassages, Masked.textFrom, Passage.text, ih]

theorem editsFrom_maskPassages (stem : List Char) (i start : Nat) (segments : List Segment) :
    editsFrom start (maskPassages stem i segments) =
      placeholderEdits stem i (heldFrom start segments) := by
  induction segments generalizing i start with
  | nil => rfl
  | cons s segments ih =>
    cases s with
    | kept l => exact ih i _
    | held run => exact congrArg (List.cons _) (ih (i + 1) _)

theorem originalText_mask (document : List Char) :
    originalText (mask document).segments = document := by
  rw [originalText, mask, flatMap_lexemes_segments, flatMap_text_lexemes]

theorem splice?_mask (document : List Char) :
    splice? document 0 (placeholderEdits (mask document).stem 0
      (heldFrom 0 (mask document).segments)) = some (mask document).text := by
  have hold : document =
      (maskPassages (mask document).stem 0 (mask document).segments).flatMap Passage.old := by
    rw [flatMap_old_maskPassages, originalText_mask]
  have hsplice := splice?_editsFrom [] [] _ hold
  rwa [flatMap_text_maskPassages, List.append_nil, byteSize, editsFrom_maskPassages] at hsplice

theorem exists_slice?_of_mem_heldFrom (front : List Char) {segments : List Segment}
    (hm : IsMasking segments) :
    ∀ h ∈ heldFrom (byteSize front) segments, ∃ text, text ≠ [] ∧
      slice? h.span.start h.span.stop (front ++ originalText segments) = some text := by
  induction segments generalizing front with
  | nil => exact List.forall_mem_nil _
  | cons s segments ih =>
    cases s with
    | kept l =>
      have hrest := ih (front ++ l.text) hm.of_cons
      rwa [byteSize_append, List.append_assoc, ← originalText_kept] at hrest
    | held run =>
      have hrest := ih (front ++ run.flatMap Lexeme.text) hm.of_cons
      rw [byteSize_append, List.append_assoc, ← originalText_held] at hrest
      refine List.forall_mem_cons.mpr ⟨⟨run.flatMap Lexeme.text, ?_, ?_⟩, hrest⟩
      · obtain ⟨c, hc, -⟩ := head_of_isLiteralRun (hm.runs run List.mem_cons_self)
          (fun t ht => hm.forms t (List.mem_append_left _ ht)) []
        rintro hnil
        rw [hnil] at hc
        contradiction
      · rw [originalText_held, ← byteSize_append]
        exact slice?_append front _ _

/-! ## What is written back -/

/-- The edit that writes a literal back in place of a token. -/
def Masked.editOf? (m : Masked) (p : PlacedToken) : Option Edit :=
  if p.token.kind = .name then
    (m.literalOf? p.token.text).map fun literal => ⟨⟨p.start, p.stop⟩, literal⟩
  else none

/-- The edit in place of a token whose name is taken from the bytes that it covers, if it is a
placeholder. -/
def Masked.editBytes? (m : Masked) (formatted : List Char) (t : ByteToken) :
    Option (Option Edit) :=
  if t.kind = .name then do
    let name ← slice? t.start t.stop formatted
    return (m.literalOf? name).map fun literal => ⟨⟨t.start, t.stop⟩, literal⟩
  else some none

/-- A text with all placeholders in it replaced by their literals. -/
def Masked.unmaskBytes? (m : Masked) (formatted : List Char) : Option (List Char) :=
  if m.literals.isEmpty then some formatted
  else do
    let ts ← byteTokens? 0 (bytesOf formatted)
    let edits ← ts.mapM (m.editBytes? formatted)
    splice? formatted 0 edits.reduceOption

theorem Masked.editBytes?_extent {m : Masked} {formatted : List Char} {p : PlacedToken}
    (hp : p.Covers formatted) : m.editBytes? formatted p.extent = some (m.editOf? p) := by
  unfold editBytes? editOf? PlacedToken.extent
  simp only [PlacedToken.covers_iff.mp hp]
  split <;> rfl

/-- A lexeme, and the literal that it is a placeholder for. -/
def Masked.passage (m : Masked) (l : Lexeme) : Passage :=
  ⟨l.text, l.token?.bind fun t => if t.kind = .name then m.literalOf? t.text else none⟩

theorem Masked.text_passage (m : Masked) (l : Lexeme) :
    (m.passage l).text = unmaskLexeme m.stem m.literals l := by
  cases l with
  | ignored text => rfl
  | token t =>
    show (if t.kind = .name then m.literalOf? t.text else none).getD t.text = _
    rw [unmaskLexeme]
    split <;> rfl

theorem Masked.editsFrom_passage (m : Masked) (start : Nat) (ls : List Lexeme) :
    editsFrom start (ls.map m.passage) = (placeTokens start ls).filterMap m.editOf? := by
  induction ls generalizing start with
  | nil => rfl
  | cons l ls ih =>
    rw [List.map_cons, editsFrom]
    cases l with
    | ignored text => exact ih _
    | token t =>
      have hedit : ((m.passage (.token t)).new?.map fun text =>
          (⟨⟨start, start + byteSize t.text⟩, text⟩ : Edit)) =
            m.editOf? ⟨t, start, start + byteSize t.text⟩ := by
        show (if t.kind = .name then m.literalOf? t.text else none).map _ = _
        rw [editOf?]
        split <;> rfl
      have hrest := ih (start + byteSize t.text)
      rw [placeTokens, List.filterMap_cons, ← hedit, ← hrest]
      cases (m.passage (.token t)).new? <;> rfl

/-- **Writing literals back** edits the names that stand for literals, and no other byte. -/
theorem Masked.splice?_unmask (m : Masked) (formatted : List Char) :
    splice? formatted 0 ((placeTokens 0 (lexemes formatted)).filterMap m.editOf?) =
      some (m.unmask formatted) := by
  have hold : formatted = ((lexemes formatted).map m.passage).flatMap Passage.old := by
    rw [List.flatMap_map]
    exact (flatMap_text_lexemes formatted).symm
  have hsplice := splice?_editsFrom [] [] _ hold
  rw [List.flatMap_map, funext m.text_passage, ← unmask_eq] at hsplice
  rwa [List.append_nil, byteSize, editsFrom_passage] at hsplice

theorem mapM_eq_some_of_forall₂ {f : α → Option β} {as : List α} {bs : List β}
    (h : List.Forall₂ (fun a b => f a = some b) as bs) : as.mapM f = some bs := by
  induction h with
  | nil => rfl
  | cons hab _ ih => rw [List.mapM_cons, hab, ih]; rfl

theorem Masked.unmaskBytes?_eq_some (m : Masked) (formatted : List Char) :
    m.unmaskBytes? formatted = some (m.unmask formatted) := by
  unfold unmaskBytes?
  split
  · next hempty => rw [Masked.unmask, if_pos hempty]
  · have hedits : ((placeTokens 0 (lexemes formatted)).map PlacedToken.extent).mapM
        (m.editBytes? formatted) = some ((placeTokens 0 (lexemes formatted)).map m.editOf?) := by
      refine mapM_eq_some_of_forall₂ ?_
      rw [List.forall₂_map_left_iff, List.forall₂_map_right_iff, List.forall₂_same]
      exact fun p hp => editBytes?_extent (covers_of_mem_placeTokens_lexemes formatted p hp)
    rw [byteTokens?_bytesOf, Option.bind_eq_bind, Option.bind_some, hedits, Option.bind_eq_bind,
      Option.bind_some, List.reduceOption, List.filterMap_map]
    exact m.splice?_unmask formatted

theorem isInfix_of_mem_heldPlaces_mask {document : List Char} :
    ∀ ps ∈ heldPlaces 0 (mask document).segments, ps <:+: placeTokens 0 (lexemes document) := by
  have hinfix := isInfix_of_mem_heldPlaces 0 (mask document).segments
  rwa [mask, flatMap_lexemes_segments] at hinfix

theorem maskBytes?_eq (document : List Char) :
    maskBytes? document = some (heldFrom 0 (mask document).segments, (mask document).text) := by
  set places := placeTokens 0 (lexemes document) with hplaces
  have hruns : ((heldRangesFrom [] none none 0 (places.map fun p => p.token.kind)).mapM
      (run? (places.map PlacedToken.extent))) =
        some ((heldPlaces 0 (mask document).segments).map (List.map PlacedToken.extent)) := by
    have hranges := forall₂_heldRangesFrom (fun p : PlacedToken => p.token.kind) [] none none []
      (fun _ h => by contradiction) places
    rw [heldPlaces_mask]
    refine mapM_eq_some_of_forall₂ (List.forall₂_map_right_iff.mpr (hranges.imp fun r run hr => ?_))
    rw [run?_map]
    exact congrArg _ hr
  have hheld : ((heldPlaces 0 (mask document).segments).map (List.map PlacedToken.extent)).mapM
      (heldOf? document) = some (heldFrom 0 (mask document).segments) := by
    have hcovers : ∀ ps ∈ heldPlaces 0 (mask document).segments, ∀ p ∈ ps, p.Covers document :=
      fun ps hps p hp => covers_of_mem_placeTokens_lexemes document p
        ((isInfix_of_mem_heldPlaces_mask ps hps).subset hp)
    have hat := (forall₂_heldFrom 0 (isMasking_segments document).runs).flip
    refine mapM_eq_some_of_forall₂ (List.forall₂_map_left_iff.mpr ?_)
    refine ((List.forall₂_and_left _ _).mpr ⟨hcovers, hat⟩).imp fun ps h hph => ?_
    obtain ⟨hcovers, hat, hliteral⟩ := hph
    rw [heldOf?_extent hat hcovers, ← hliteral]
  have hkinds : (places.map PlacedToken.extent).map ByteToken.kind =
      places.map fun p => p.token.kind := List.map_map
  have htext : splice? document 0 (placeholderEdits (placeholderStem document) 0
      (heldFrom 0 (mask document).segments)) = some (mask document).text := splice?_mask document
  simp only [maskBytes?, byteTokens?_bytesOf, ← hplaces, hkinds, hruns, hheld, htext,
    Option.bind_eq_bind, Option.bind_some]
  rfl

/-- **Masking by bytes** takes no slice out of range, whatever the brackets of the document. What
is held back are floats and tokens from brace to brace, each over some bytes of its own, one
behind the other; the masked text is the document with the placeholders in place of those bytes,
and what is written back later stands in place of names that are placeholders. -/
theorem maskBytes?_eq_some (document : List Char) :
    ∃ held, maskBytes? document = some (held, (mask document).text) ∧
      (mask document).literals = held.map Held.literal ∧
      (∀ h ∈ held, ∃ text, text ≠ [] ∧ slice? h.span.start h.span.stop document = some text) ∧
      held.Pairwise (fun g h => g.span.stop ≤ h.span.start) ∧
      (∀ h ∈ held, ∃ run, run <:+: placeTokens 0 (lexemes document) ∧ IsLiteralAt h.span run ∧
        h.literal = layOut (run.map PlacedToken.token)) ∧
      splice? document 0 (placeholderEdits (mask document).stem 0 held) =
        some (mask document).text ∧
      ∀ formatted, (mask document).unmaskBytes? formatted =
          some ((mask document).unmask formatted) ∧
        splice? formatted 0
            ((placeTokens 0 (lexemes formatted)).filterMap (mask document).editOf?) =
          some ((mask document).unmask formatted) := by
  have hat := (forall₂_heldFrom 0 (isMasking_segments document).runs).flip
  have hslices := exists_slice?_of_mem_heldFrom [] (isMasking_segments document)
  rw [List.nil_append, originalText_mask] at hslices
  refine ⟨heldFrom 0 (mask document).segments, maskBytes?_eq document, literals_eq_heldFrom _ _ _,
    hslices, pairwise_heldFrom _ _, fun h hh => ?_, splice?_mask document,
    fun formatted => ⟨Masked.unmaskBytes?_eq_some _ formatted, Masked.splice?_unmask _ formatted⟩⟩
  obtain ⟨run, hrun, hrun'⟩ := exists_mem_of_forall₂ hat hh
  exact ⟨run, isInfix_of_mem_heldPlaces_mask run hrun, hrun'⟩

end QueryDoc.Source
