import QueryDoc.Proofs.Acceptance
import QueryDoc.Proofs.Grammar.Printing

/-!
# QueryDoc.Proofs.Canonicalization

The canonical form of a text. Masking takes the floats and objects out of it, the parser finds
the document with names in their places, the printer writes that document, and the literals
take the places of the names again.

`exists_written_unmask` says what the last step does to any text that is written with those
names: it puts each literal in the place of its own name, and nothing else changes.
`canonicalize_laid` puts all steps together for a text that is written in the pieces of a
document, with strings in it that need no escapes: if the brackets that the parser sees find
room, the canonical form has the same tokens.
-/

namespace QueryDoc

open Grammar Source

/-! ## Reading on -/

namespace Grammar

theorem go_of_forall₂ {f : α → Option β} {s : Scan α} (hs : s.complete = true)
    {items : List (α × Position)} {bs : List β}
    (h : List.Forall₂ (fun a b => f a = some b) (items.map Prod.fst) bs) :
    (Scan.mapWhile.go f s items).complete = true ∧
      (Scan.mapWhile.go f s items).items.map Prod.fst = bs := by
  induction items generalizing bs with
  | nil =>
    cases h
    exact ⟨hs, rfl⟩
  | cons item items ih =>
    obtain ⟨a, place⟩ := item
    cases h with
    | @cons _ b _ bs hab hrest =>
      obtain ⟨hcomplete, hitems⟩ := ih hrest
      unfold Scan.mapWhile.go
      simp only [hab, Scan.cons]
      exact ⟨hcomplete, congrArg (b :: ·) hitems⟩

/-- A text that spells a document without floats is parsed as this document and no other, if
the brackets in it find room. -/
theorem parse_spelled {text : List Char} {document : Document} (h : Spelled text document.terminals)
    (hwf : document.WellFormed) (hf : ∀ u ∈ document.terminals, u.kind ≠ .float)
    (parsed : Document) :
    parse text = .ok parsed ↔
      hasRoom maxNesting (Source.tokens text) = true ∧ parsed = document := by
  obtain ⟨hcomplete, hitems⟩ := h.scanFrom hf maxNesting .start
  rw [h.tokens]
  have hparse (hroom : hasRoom maxNesting (document.terminals.map Terminal.token) = true) :
      parse text = .ok document := by
    have hread : List.Forall₂ (fun t u => Token.terminal? t = some u)
        ((scan text).items.map Prod.fst) document.terminals := by
      rw [show (scan text).items.map Prod.fst = _ from hitems hroom, List.forall₂_map_left_iff,
        List.forall₂_same]
      exact fun u hu => terminal?_strictToken (h.isPlain u hu) (hf u hu)
    obtain ⟨hall, hterminals⟩ := go_of_forall₂ (hcomplete.trans hroom) hread
    have hdocument := (Parser.document_eq_ok_iff _ _).mpr ⟨hwf, rfl⟩
    simp only [parse]
    rw [show (terminals text).items.map Prod.fst = document.terminals from hterminals, hdocument]
    simp only [show (terminals text).complete = true from hall, if_true]
  constructor
  · intro hparsed
    have hroom := hcomplete.symm.trans (exists_of_parse hparsed).2.1
    rw [hparse hroom] at hparsed
    exact ⟨hroom, (Except.ok.inj hparsed).symm⟩
  · rintro ⟨hroom, rfl⟩
    exact hparse hroom

end Grammar

/-! ## Rows of pieces -/

namespace Source

/-- A piece that stays as it is if it is held back, and otherwise corresponds to another one. -/
inductive Piece.Keeps (R : α → α → Prop) : Piece α → Piece α → Prop where
  | kept (h : R a b) : Keeps R (.kept a) (.kept b)
  | held (run : List α) : Keeps R (.held run) (.held run)

theorem eq_of_forall₂_keeps {ps qs : List (Piece α)} (h : List.Forall₂ (Piece.Keeps Eq) ps qs) :
    ps = qs := by
  induction h with
  | nil => rfl
  | cons hpq _ ih =>
    cases hpq with
    | kept heq => rw [heq, ih]
    | held run => rw [ih]

end Source

/-! ## Writing back -/

section Unmask

variable {document : List Char}

/-- The tokens of one text stand for those of another, and names are not changed. -/
structure KeepsNames (R : Source.Token → Source.Token → Prop) : Prop where
  kind_eq : ∀ t t', R t t' → t'.kind = t.kind
  name_eq : ∀ t t', R t t' → t.kind = .name → t' = t

/-- With the runs in place of their names, a row has the pieces that the names were given for. -/
theorem forall₂_restored {R : Source.Token → Source.Token → Prop} (hR : KeepsNames R) (i : Nat)
    {ps : List (Piece Source.Token)} {ts : List Source.Token}
    (hkept : ∀ t, .kept t ∈ ps → t ∈ tokens document)
    (hruns : ∀ k run, (heldRuns ps)[k]? = some run → (mask document).runs[i + k]? = some run)
    (h : List.Forall₂ R (nameHeld (placeholderToken (placeholderStem document)) i ps) ts) :
    List.Forall₂ (Piece.Keeps R) ps (ts.map (restored (runNamed? document))) := by
  induction ps generalizing i ts with
  | nil =>
    cases h
    exact .nil
  | cons p ps ih =>
    have hkept' : ∀ t, .kept t ∈ ps → t ∈ tokens document := fun t ht =>
      hkept t (List.mem_cons_of_mem _ ht)
    cases p with
    | kept t =>
      cases h with
      | @cons _ t' _ ts htt' hrest =>
        have hnone : runNamed? document t' = none := by
          by_cases hk : t.kind = .name
          · rw [hR.name_eq t t' htt' hk]
            exact runNamed?_of_mem_tokens (hkept t List.mem_cons_self)
          · rw [runNamed?, if_neg (hR.kind_eq t t' htt' ▸ hk)]
        rw [List.map_cons, restored, hnone]
        exact .cons (.kept htt') (ih i hkept' hruns hrest)
    | held run =>
      cases h with
      | @cons _ t' _ ts htt' hrest =>
        obtain rfl : t' = placeholderToken (placeholderStem document) i := hR.name_eq _ t' htt' rfl
        have hrun : runNamed? document (placeholderToken (placeholderStem document) i) =
            some run := by
          rw [runNamed?_placeholderToken]
          exact hruns 0 run rfl
        rw [List.map_cons, restored, hrun]
        refine .cons (.held run) (ih (i + 1) hkept' (fun k run' hk => ?_) hrest)
        have hnext := hruns (k + 1) run' hk
        rwa [← Nat.add_assoc, Nat.add_right_comm] at hnext

/-- **Writing back**: if a text is written with one name in place of each literal of a document,
and with tokens that stand for its other ones, then it is written with the literals in the
places of the names afterwards. -/
theorem exists_written_unmask {R : Source.Token → Source.Token → Prop} (hR : KeepsNames R)
    (hruns : ∀ run ∈ (mask document).runs, IsLiteral run) {formatted : List Char}
    {ts : List Source.Token} (hf : Written formatted (ts.map .kept))
    (h : List.Forall₂ R (maskedTokens (mask document).stem 0 (mask document).segments) ts) :
    ∃ qs, Written ((mask document).unmask formatted) qs ∧
      List.Forall₂ (Piece.Keeps R) (pieces Source.Token.kind (tokens document)) qs ∧
      pieces Source.Token.kind (tokens ((mask document).unmask formatted)) = qs := by
  rw [maskedTokens_mask] at h
  have hwritten := (written_unmask hf (fun t _ => unmaskLexeme_mask document t)
    fun t _ run hrun => ?_).1
  · rw [← unmask_eq] at hwritten
    have hkeeps := forall₂_restored hR 0 (fun t => mem_tokens_of_kept)
      (fun k run hk => by rwa [Nat.zero_add, runs_mask]) h
    refine ⟨_, hwritten, hkeeps, ?_⟩
    -- Only the kinds of the tokens matter for where a row is cut.
    have hrel : List.Forall₂ (Piece.Rel fun t' t : Source.Token => t'.kind = t.kind)
        (ts.map (restored (runNamed? document))) (pieces Source.Token.kind (tokens document)) := by
      refine hkeeps.flip.imp fun q p hpq => ?_
      cases hpq with
      | kept htt' => exact .kept (hR.kind_eq _ _ htt')
      | held run => exact .held (List.forall₂_same.mpr fun _ _ => rfl)
    have hall := forall₂_all hrel
    rw [flatMap_all_pieces] at hall
    rw [hwritten.tokens]
    refine eq_of_forall₂_rel (forall₂_pieces (fun _ _ hk => hk) hall) hrel ?_
    rw [flatMap_all_pieces]
  · rw [runNamed?] at hrun
    split at hrun
    · next hk =>
      obtain ⟨i, -, hi⟩ := Option.bind_eq_some_iff.mp hrun
      exact ⟨hk, hruns run (List.mem_of_getElem? hi)⟩
    · contradiction

end Unmask

/-! ## Texts without escapes -/

/-- The name of a placeholder is written as the placeholder. -/
theorem writtenAs_placeholder (style : String → List Char → Prop) (document : List Char) (i : Nat) :
    WrittenAs style (placeholderToken (placeholderStem document) i)
      (.name (placeholderName document i)) where
  solid := isSolid_placeholder (isStem_placeholderStem document) i
  kind := rfl
  text := String.toList_ofList.symm

/-- What is printed for bare strings is what they are spelled as. -/
theorem eq_token_of_printed {t : Source.Token} {u : Terminal} (h : WrittenAs Printed t u)
    (hu : u.IsPlain) : t = u.token := by
  obtain ⟨kind, text⟩ := t
  obtain ⟨-, hkind, htext⟩ := h
  obtain rfl : kind = u.kind := hkind
  obtain rfl : text = u.spelling := by
    cases u with
    | string s =>
      obtain ⟨indent, depth, rfl⟩ := htext
      exact stringText_bare hu indent depth
    | _ => exact htext
  rfl

/-- A text has a canonical form if its masked text can be parsed. -/
theorem canonicalize_eq_ok_iff {layout : Layout} {text out : String} :
    canonicalize layout text = .ok out ↔
      ∃ parsed, Grammar.parse (mask text.toList).text = .ok parsed ∧
        out.toList = (mask text.toList).unmask (print layout.indent.toNat parsed).toList := by
  unfold canonicalize
  simp only
  cases hparse : Grammar.parse (mask text.toList).text with
  | error place => simp
  | ok parsed =>
    simp only [Except.ok.injEq, exists_eq_left', ← String.toList_inj, String.toList_ofList]
    exact eq_comm

/-- What is printed for a document without floats and objects, one token for each of its
terminals. -/
theorem exists_row_of_print (indent : Nat) {document : Grammar.Document}
    (hheld : document.slots.flatMap Slot.heldValues = []) (hwf : ∀ d ∈ document, d.WellFormed)
    (hu : ∀ u ∈ document.terminals, u.IsPrintable) (hshows : ∀ d ∈ document, d.ShowsVariables) :
    ∃ ts, Written (print indent document).toList (ts.map .kept) ∧
      List.Forall₂ (WrittenAs Printed) ts document.terminals := by
  have hslots : ∀ slot ∈ document.slots, slot.IsPrintable := fun slot hslot =>
    ⟨fun u hmem => hu u (List.mem_flatMap.mpr ⟨slot, hslot, hmem⟩),
      List.flatMap_eq_nil_iff.mp hheld slot hslot⟩
  obtain ⟨qs, hqs, hrel⟩ := laid_print indent hslots hwf hshows
  rw [slotPieces_of_heldValues hheld] at hrel
  obtain ⟨ts, rfl, hts⟩ := exists_of_forall₂_kept hrel
  exact ⟨ts, hqs, hts⟩

section Laid

variable {text : String} {whole : Grammar.Document}

/-- **Canonical forms**: a text that is written in the pieces of a document has a canonical
form exactly if the brackets that the parser sees find room, and that has the same tokens. -/
theorem canonicalize_laid (layout : Layout)
    (h : Laid (Verbatim isBare) text.toList (slotPieces whole.slots)) (hw : whole.WellFormed)
    (hshows : ∀ d ∈ whole, d.ShowsVariables) :
    ((∃ out, canonicalize layout text = .ok out) ↔
      hasRoom maxNesting (tokens (mask text.toList).text) = true) ∧
    ∀ out, canonicalize layout text = .ok out → tokens out.toList = tokens text.toList := by
  obtain ⟨hwritten, hrel⟩ := h.written (pieces_terminals whole)
  obtain ⟨masked, hm⟩ := exists_masked (placeholderName text.toList) hw
  -- The masked text is written with the names of the masked document.
  have hnames := forall₂_nameHeld (writtenAs_placeholder (Verbatim isBare) text.toList) 0 hrel
  rw [← named, ← hm.terminals, ← maskedTokens_mask] at hnames
  have hmasked : Spelled (mask text.toList).text masked.terminals := by
    refine Laid.spelled ⟨_, hwritten.mask (by rw [flatMap_all_pieces]), ?_⟩
    rw [List.forall₂_map_left_iff, List.forall₂_map_right_iff, ← maskedTokens_mask]
    exact hnames.imp fun _ _ => .kept
  have hparse := parse_spelled hmasked hm.wellFormed
    (not_float_of_mem_terminals hm.wellFormed hm.heldValues)
  constructor
  · constructor
    · rintro ⟨out, hout⟩
      obtain ⟨parsed, hparsed, -⟩ := canonicalize_eq_ok_iff.mp hout
      exact ((hparse parsed).mp hparsed).1
    · intro hroom
      exact ⟨String.ofList _, canonicalize_eq_ok_iff.mpr
        ⟨masked, (hparse masked).mpr ⟨hroom, rfl⟩, String.toList_ofList⟩⟩
  · intro out hout
    obtain ⟨parsed, hparsed, hunmask⟩ := canonicalize_eq_ok_iff.mp hout
    obtain rfl := ((hparse parsed).mp hparsed).2
    obtain ⟨ts, hts, hprinted⟩ := exists_row_of_print layout.indent.toNat hm.heldValues
      hm.wellFormed.2 (fun u hu => (hmasked.isPlain u hu).isPrintable) (hm.showsVariables hshows)
    -- The tokens that are printed are those of the masked text.
    have hsame : ts = maskedTokens (mask text.toList).stem 0 (mask text.toList).segments := by
      rw [eq_map_of_forall₂ hnames fun u _ t h => h.eq_token,
        eq_map_of_forall₂ hprinted fun u hu t h => eq_token_of_printed h (hmasked.isPlain u hu)]
    have hrow := List.forall₂_same.mpr fun t (_ : t ∈ ts) => Eq.refl t
    rw [hsame] at hts hrow
    obtain ⟨qs, hqs, hkeeps, -⟩ := exists_written_unmask (R := Eq)
      ⟨fun _ _ h => h ▸ rfl, fun _ _ h _ => h.symm⟩
      (fun run hrun => hwritten.isLiteral (mem_heldRuns.mp (runs_mask _ ▸ hrun))) hts hrow
    rw [hunmask, hqs.tokens, ← eq_of_forall₂_keeps hkeeps, flatMap_all_pieces]

end Laid

end QueryDoc
