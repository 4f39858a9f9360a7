import QueryDoc.Proofs.Printed
import QueryDoc.Proofs.Grammar.Renaming

/-!
# QueryDoc.Proofs.Idempotence

The canonical form of a canonical form is the form itself (`canonicalize_canonicalize`), for
documents whose objects are object values, and that have no strings outside of them.

A canonical form is written in pieces: the tokens of the printed document, and the literals in
the places of their names. Masking finds these pieces again and writes other names for the
literals, since the stem may be another one, and since names that are not printed take no part
in the numbering (`renumber`). The parser finds the same document with these names in it, and
the printer writes them in the places of the first ones.
-/

namespace QueryDoc

open Grammar Source

/-! ## Numbering names -/

section Numbering

variable (σ : Source.Token → Option (List Source.Token))

/-- The tokens of a row that stand for runs. -/
def standing (ts : List Source.Token) : List Source.Token := ts.filter fun t => (σ t).isSome

/-- The name by which another one that stands for a run is replaced: the one with its number
among those in a row. -/
def renumber (name : Nat → String) (ts : List Source.Token) (s : String) : String :=
  if (σ ⟨.name, s.toList⟩).isSome then name ((standing σ ts).idxOf ⟨.name, s.toList⟩) else s

variable {σ}

theorem standing_of_none {t : Source.Token} (h : σ t = none) (ts : List Source.Token) :
    standing σ (t :: ts) = standing σ ts := List.filter_cons_of_neg (by simp [h])

theorem standing_of_some {t : Source.Token} {run : List Source.Token} (h : σ t = some run)
    (ts : List Source.Token) : standing σ (t :: ts) = t :: standing σ ts :=
  List.filter_cons_of_pos (by simp [h])

theorem mem_standing {t : Source.Token} {ts : List Source.Token} :
    t ∈ standing σ ts ↔ t ∈ ts ∧ (σ t).isSome = true := List.mem_filter

/-- Names in place of runs are numbered by the tokens that have stood for these. -/
theorem nameHeld_map_restored (name : Nat → Source.Token) (i : Nat) {ts : List Source.Token}
    (h : (standing σ ts).Nodup) :
    nameHeld name i (ts.map (restored σ)) =
      ts.map fun t => if (σ t).isSome then name (i + (standing σ ts).idxOf t) else t := by
  induction ts generalizing i with
  | nil => rfl
  | cons t ts ih =>
    cases hσ : σ t with
    | none =>
      rw [standing_of_none hσ] at h ⊢
      rw [List.map_cons, List.map_cons, restored_of_none hσ, nameHeld, ih i h, hσ]
      rfl
    | some run =>
      rw [standing_of_some hσ] at h ⊢
      obtain ⟨hnew, hrest⟩ := List.nodup_cons.mp h
      rw [List.map_cons, List.map_cons, restored, hσ, nameHeld, ih (i + 1) hrest]
      congr 1
      · simp
      · refine List.map_congr_left fun u hu => ?_
        by_cases hsome : (σ u).isSome = true
        · have hne : t ≠ u := by
            rintro rfl
            exact hnew (mem_standing.mpr ⟨hu, hsome⟩)
          rw [if_pos hsome, if_pos hsome, List.idxOf_cons_ne _ hne, Nat.add_assoc, Nat.add_comm 1]
        · rw [if_neg hsome, if_neg hsome]

/-- The run that a token stands for is found again by the place of the token among its like. -/
theorem getElem?_heldRuns_restored {ts : List Source.Token} {t : Source.Token}
    {run : List Source.Token} (ht : t ∈ ts) (hrun : σ t = some run) :
    (heldRuns (ts.map (restored σ)))[(standing σ ts).idxOf t]? = some run := by
  induction ts with
  | nil => contradiction
  | cons u ts ih =>
    by_cases hu : u = t
    · subst hu
      rw [standing_of_some hrun, List.idxOf_cons_self, List.map_cons, restored, hrun]
      rfl
    · have hrest := ih ((List.mem_cons.mp ht).resolve_left (Ne.symm hu))
      cases hσ : σ u with
      | none => rwa [standing_of_none hσ, List.map_cons, restored_of_none hσ, heldRuns_kept]
      | some run' =>
        rw [standing_of_some hσ, List.idxOf_cons_ne _ hu, List.map_cons, restored, hσ]
        exact hrest

end Numbering

/-! ## Printed documents -/

/-- A document that is printed in the spelling of its terminals. -/
structure PrintsPlainly (printed : Grammar.Document) : Prop extends Prints printed where
  plain : ∀ u ∈ printed.terminals, u.IsPlain

/-- A terminal that can be printed is printed in its spelling, unless it is a string. -/
theorem isPlain_of_isPrintable {u : Terminal} (h : u.IsPrintable) (hs : ∀ s, u ≠ .string s) :
    u.IsPlain := by
  cases u with
  | string s => exact absurd rfl (hs s)
  | mark c => exact h
  | name s => exact h
  | _ => trivial

/-- A text that is written token by token spells the terminals of these tokens. -/
theorem spelled_of_written {cs : List Char} {us : List Terminal} (hu : ∀ u ∈ us, u.IsPlain)
    (h : Written cs ((us.map Terminal.token).map .kept)) : Spelled cs us := by
  refine Laid.spelled ⟨_, h, ?_⟩
  rw [List.forall₂_map_left_iff, List.forall₂_map_left_iff, List.forall₂_map_right_iff,
    List.forall₂_same]
  refine fun u hmem => .kept (writtenAs_token (hu u hmem) ?_)
  rintro s rfl
  exact ⟨hu _ hmem, rfl⟩

namespace PrintsPlainly

variable {printed : Grammar.Document} (h : PrintsPlainly printed)
include h

/-- The tokens of the terminals are what is printed. -/
theorem forall₂_token :
    List.Forall₂ (WrittenAs Printed) (printed.terminals.map Terminal.token) printed.terminals := by
  rw [List.forall₂_map_left_iff, List.forall₂_same]
  refine fun u hu => writtenAs_token (h.plain u hu) ?_
  rintro s rfl
  exact ⟨0, 0, (stringText_bare (h.plain _ hu) 0 0).symm⟩

/-- A printed document is written in the tokens of its terminals. -/
theorem written_print (indent : Nat) :
    Written (print indent printed).toList ((printed.terminals.map Terminal.token).map .kept) := by
  obtain ⟨ts, hts, hprinted⟩ := h.exists_row indent
  rwa [eq_map_of_forall₂ hprinted fun u hmem t htu => eq_token_of_printed htu (h.plain u hmem)]
    at hts

theorem spelled_print (indent : Nat) : Spelled (print indent printed).toList printed.terminals :=
  spelled_of_written h.plain (h.written_print indent)

theorem isSimple : ∀ slot ∈ printed.slots, slot.IsSimple := fun slot hslot =>
  ⟨fun u hu => h.plain u (List.mem_flatMap.mpr ⟨slot, hslot, hu⟩),
    List.flatMap_eq_nil_iff.mp h.heldValues slot hslot⟩

/-- Other names make no difference, as long as they are names. -/
theorem rename {f : String → String} (hk : KeepsKeywords f) (hon : ∀ s, f s = "on" → s = "on")
    (hf : ∀ u ∈ printed.terminals, (u.rename f).IsPlain) : PrintsPlainly (printed.rename f) where
  wellFormed := h.wellFormed.rename hon
  shows d hd := by
    obtain ⟨e, he, rfl⟩ := List.mem_map.mp hd
    exact (h.shows e he).rename
  printable u hu := by
    rw [terminals_rename hk] at hu
    obtain ⟨v, hv, rfl⟩ := List.mem_map.mp hu
    exact (hf v hv).isPrintable
  plain u hu := by
    rw [terminals_rename hk] at hu
    obtain ⟨v, hv, rfl⟩ := List.mem_map.mp hu
    exact hf v hv
  heldValues := by
    rw [slots_rename hk, flatMap_heldValues_rename, h.heldValues, List.map_nil]

end PrintsPlainly

/-! ## The second pass -/

section SecondPass

variable {document : List Char} {printed : Grammar.Document}

/-- The pieces of a printed document with the literals in place. -/
def restoredRow (document : List Char) (printed : Grammar.Document) : List (Piece Source.Token) :=
  (printed.terminals.map Terminal.token).map (restored (runNamed? document))

/-- The names that the second pass finds in the places of the first ones. -/
def secondName (document : List Char) (printed : Grammar.Document) (out : List Char) :
    String → String :=
  renumber (runNamed? document) (placeholderName out) (printed.terminals.map Terminal.token)

/-- A word that does not begin like a placeholder stands for nothing. -/
theorem runNamed?_word {s : String} (h : s.toList.head? ≠ some '_') :
    runNamed? document ⟨.name, s.toList⟩ = none := by
  refine runNamed?_of_placeholderIndex? ?_
  by_contra hsome
  obtain ⟨i, hi⟩ := Option.ne_none_iff_exists'.mp hsome
  obtain ⟨ds, hname, -⟩ := exists_digits_of_placeholderIndex? hi
  obtain ⟨body, hstem⟩ := List.head?_eq_some_iff.mp (isStem_placeholderStem document).head
  exact h (by rw [show s.toList = _ from hname, hstem]; rfl)

/-! ### Names of the second pass -/

section Names

variable {out : List Char}

/-- A name that stands for nothing stays. -/
theorem secondName_of_none {s : String} (h : runNamed? document ⟨.name, s.toList⟩ = none) :
    secondName document printed out s = s := by
  rw [secondName, renumber, h]
  rfl

/-- A placeholder begins with an underscore. -/
theorem head_placeholderName (out : List Char) (i : Nat) :
    (placeholderName out i).toList.head? = some '_' := by
  rw [placeholderName, String.toList_ofList]
  simpa using (isStem_placeholderStem out).head_placeholder i []

variable (document printed out) in
/-- A name stays, or it becomes a placeholder of the second document. -/
theorem secondName_cases (s : String) :
    (runNamed? document ⟨.name, s.toList⟩ = none ∧ secondName document printed out s = s) ∨
      ∃ i, secondName document printed out s = placeholderName out i := by
  cases h : runNamed? document ⟨.name, s.toList⟩ with
  | none => exact .inl ⟨rfl, secondName_of_none h⟩
  | some run => exact .inr ⟨_, by rw [secondName, renumber, h]; rfl⟩

/-- No keyword stands for anything, and no placeholder is a keyword. -/
theorem keepsKeywords_secondName (document : List Char) (printed : Grammar.Document)
    (out : List Char) : KeepsKeywords (secondName document printed out) where
  operation type := secondName_of_none (runNamed?_word (by cases type <;> decide))
  fragment := secondName_of_none (runNamed?_word (by decide))
  on := secondName_of_none (runNamed?_word (by decide))

theorem eq_on_of_secondName {s : String} (h : secondName document printed out s = "on") :
    s = "on" := by
  obtain ⟨-, hs⟩ | ⟨i, hi⟩ := secondName_cases document printed out s
  · rwa [hs] at h
  · have hhead := head_placeholderName out i
    rw [← hi, h] at hhead
    contradiction

theorem isPlain_rename {u : Terminal} (h : u.IsPlain) :
    (u.rename (secondName document printed out)).IsPlain := by
  cases u with
  | name s =>
    show isName (secondName document printed out s).toList = true
    obtain ⟨-, hs⟩ | ⟨i, hi⟩ := secondName_cases document printed out s
    · rwa [hs]
    · rw [hi, placeholderName, String.toList_ofList]
      exact (isStem_placeholderStem out).isName_placeholder i
  | _ => exact h

/-- A terminal is renamed exactly if its token stands for a run: by its place among its like. -/
theorem token_rename (u : Terminal) :
    (u.rename (secondName document printed out)).token =
      if (runNamed? document u.token).isSome then
        placeholderToken (placeholderStem out)
          ((standing (runNamed? document) (printed.terminals.map Terminal.token)).idxOf u.token)
      else u.token := by
  cases u with
  | name s =>
    rw [show (Terminal.name s).token = ⟨.name, s.toList⟩ from rfl, Terminal.rename, secondName,
      renumber]
    split
    · rw [placeholderToken, ← String.toList_ofList (l := placeholder _ _)]
      rfl
    · rfl
  | _ => exact (if_neg (by simp [runNamed?, Terminal.token, Terminal.kind])).symm

end Names

/-! ### Texts of the second pass -/

section Row

variable (hprinted : PrintsPlainly printed) (hp : Restorable document printed.terminals)
  (hruns : ∀ run ∈ (mask document).runs, IsLiteralValue run)
include hprinted hp hruns

/-- The restored row is cut into the pieces that it was restored from. -/
theorem pieces_restoredRow :
    pieces Source.Token.kind ((restoredRow document printed).flatMap Piece.all) =
      restoredRow document printed :=
  pieces_restored hruns hprinted.toPrints hp hprinted.forall₂_token

/-- The masked text of what is written spells the printed document under its second names. -/
theorem spelled_mask_out {out : List Char} (hout : Written out (restoredRow document printed)) :
    Spelled (mask out).text
      (printed.terminals.map (Terminal.rename (secondName document printed out))) := by
  have hnodup : (standing (runNamed? document) (printed.terminals.map Terminal.token)).Nodup := by
    refine List.nodup_iff_count_le_one.mpr fun t => ?_
    by_cases ht : (runNamed? document t).isSome = true
    · rw [standing, List.count_filter (p := fun t => (runNamed? document t).isSome) ht]
      exact hp.once t (Option.isSome_iff_ne_none.mp ht)
    · rw [List.count_eq_zero_of_not_mem fun hmem => ht (mem_standing.mp hmem).2]
      exact Nat.zero_le 1
  have hmask := hout.mask (pieces_restoredRow hprinted hp hruns)
  rw [restoredRow, nameHeld_map_restored _ 0 hnodup] at hmask
  refine spelled_of_written (fun u hu => ?_) ?_
  · obtain ⟨v, hv, rfl⟩ := List.mem_map.mp hu
    exact isPlain_rename (hprinted.plain v hv)
  · simpa [Function.comp_def, token_rename] using hmask

/-- The new names stand for the same literals as the old ones. -/
theorem unmaskLexeme_rename {out : List Char} (hout : Written out (restoredRow document printed))
    {u : Terminal} (hu : u ∈ printed.terminals) :
    unmaskLexeme (mask document).stem (mask document).literals (.token u.token) =
      unmaskLexeme (mask out).stem (mask out).literals
        (.token (u.rename (secondName document printed out)).token) := by
  have htokens := hout.tokens
  have hpieces := pieces_restoredRow hprinted hp hruns
  have hmem : u.token ∈ printed.terminals.map Terminal.token := List.mem_map_of_mem hu
  rw [unmaskLexeme_mask, unmaskLexeme_mask, token_rename]
  cases hrun : runNamed? document u.token with
  | none =>
    have hkept : .kept u.token ∈ restoredRow document printed :=
      List.mem_map.mpr ⟨_, hmem, restored_of_none hrun⟩
    have hout : u.token ∈ tokens out := by
      rw [htokens]
      exact List.mem_flatMap.mpr ⟨_, hkept, List.mem_singleton_self _⟩
    simp [runNamed?_of_mem_tokens hout]
  | some run =>
    have hnumber := getElem?_heldRuns_restored hmem hrun
    rw [← restoredRow, ← hpieces, ← htokens, ← runs_mask] at hnumber
    simp [runNamed?_placeholderToken, hnumber]

end Row

end SecondPass

/-- **Idempotence**: a canonical form is its own canonical form, if the document that it has been
made of has no strings outside of objects, and if all objects in it are object values. -/
theorem canonicalize_canonicalize (layout : Layout) {text out : String}
    (h : canonicalize layout text = .ok out)
    (hs : ∀ t, .kept (.token t) ∈ (mask text.toList).segments → t.kind ≠ .string)
    (hruns : ∀ run ∈ (mask text.toList).runs, IsLiteralValue run) :
    canonicalize layout out = .ok out := by
  have hnone : keptStrings text.toList = [] := keptStrings_eq_nil hs
  obtain ⟨parsed, -, hout, hprints, hp, hstrings⟩ :=
    exists_printed_of_canonicalize h hruns (by simp [hnone])
  rw [hnone, List.forall₂_nil_left_iff] at hstrings
  have hprinted : PrintsPlainly parsed.shown := by
    refine ⟨hprints, fun u hu => isPlain_of_isPrintable (hprints.printable u hu) ?_⟩
    rintro s rfl
    have hmem := mem_strings.mpr ((trimmed_shown parsed).sublist.subset hu)
    simp [hstrings] at hmem
  generalize parsed.shown = printed at hout hp hprinted
  have hrow := written_restored hruns (hprinted.written_print layout.indent.toNat)
  rw [← hout] at hrow
  -- The second pass parses the same document with other names.
  have hk := keepsKeywords_secondName text.toList printed out.toList
  have hrenamed := hprinted.rename hk (fun _ => eq_on_of_secondName)
    fun u hu => isPlain_rename (hprinted.plain u hu)
  have hmasked := spelled_mask_out hprinted hp hruns hrow
  rw [← terminals_rename hk] at hmasked
  have hroom : hasRoom maxNesting (tokens (mask out.toList).text) = true := by
    rw [hmasked.tokens, terminals_rename hk, ← hp.room]
    refine hasRoom_congr _ ?_
    simp [Function.comp_def, Terminal.token, kind_rename]
  have hagain := (parse_spelled hmasked hrenamed.wellFormed hrenamed.not_float _).mpr ⟨hroom, rfl⟩
  refine canonicalize_eq_ok_iff.mpr ⟨_, hagain, hout.trans ?_⟩
  rw [unmask_eq, unmask_eq]
  exact flatMap_lexemes_print _ _ hk hprinted.isSimple hprinted.wellFormed.2 hprinted.shows
    (hprinted.spelled_print _) (hrenamed.spelled_print _) (fun _ => rfl)
    fun u hu => unmaskLexeme_rename hprinted hp hruns hrow hu

/-- A text in which the first literal has no place in the canonical form, so that the names of the
others are numbered anew. -/
def priceSubscription : String :=
  "subscription($v: Float = 2.5) \x7b price(of: \x7bkey: \"x\" past:[1.50]\x7d, rate: 1e3) \x7d"

def canonicalSubscription : String :=
  "subscription \x7b\n  price(of: \x7bkey: \"x\", past: [1.50]\x7d, rate: 1e3)\n\x7d\n"

theorem canonicalize_priceSubscription :
    canonicalize .standard priceSubscription = .ok canonicalSubscription ∧
      canonicalize .standard canonicalSubscription = .ok canonicalSubscription := by
  have h : canonicalize .standard priceSubscription = .ok canonicalSubscription := by
    decide +kernel
  have hkept : ∀ s ∈ (mask priceSubscription.toList).segments,
      s.piece?.all (fun p => p.kind Source.Token.kind != .string) = true := by
    decide +kernel
  have hkinds : ∀ run ∈ (mask priceSubscription.toList).runs,
      run.map Source.Token.kind = [.float] ∨
        run.map Source.Token.kind = (Grammar.Value.object [("key", .string "x"),
          ("past", .list [.float ⟨0⟩])]).terminals.map Terminal.kind := by
    decide +kernel
  have hclosed : ∀ run ∈ (mask priceSubscription.toList).runs, ∀ t ∈ run,
      t.kind = .string → t.isClosed = true := by
    decide +kernel
  refine ⟨h, canonicalize_canonicalize .standard h (fun t ht => ?_) fun run hrun => ?_⟩
  · simpa [Segment.piece?, Lexeme.token?, Piece.kind] using hkept _ ht
  · obtain hfloat | hobject := hkinds run hrun
    · exact .inr (by simpa [List.map_eq_singleton_iff] using hfloat)
    · exact .inl ⟨⟨_, forall₂_kind_iff.mpr hobject⟩, hclosed run hrun⟩

end QueryDoc
