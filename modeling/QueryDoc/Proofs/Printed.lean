import QueryDoc.Proofs.Parsed

/-!
# QueryDoc.Proofs.Printed

Canonical forms as rows of pieces: the tokens of the printed document, and the literals in the
places of the names that stand for them (`written_restored`). Masking finds these pieces again,
since the names stand where literals belong (`pieces_restored`).
-/

namespace QueryDoc

open Grammar Source

/-! ## Printed documents -/

/-- A document that can be printed, without floats and objects and without variables that the
printer leaves out. -/
structure Prints (printed : Grammar.Document) : Prop where
  wellFormed : printed.WellFormed
  shows : ∀ d ∈ printed, d.ShowsVariables
  printable : ∀ u ∈ printed.terminals, u.IsPrintable
  heldValues : printed.slots.flatMap Slot.heldValues = []

namespace Prints

variable {printed : Grammar.Document} (h : Prints printed)
include h

theorem exists_row (indent : Nat) :
    ∃ ts, Written (print indent printed).toList (ts.map .kept) ∧
      List.Forall₂ (WrittenAs Printed) ts printed.terminals :=
  exists_row_of_print indent h.heldValues h.wellFormed.2 h.printable h.shows

theorem not_float : ∀ u ∈ printed.terminals, u.kind ≠ .float :=
  not_float_of_mem_terminals h.wellFormed h.heldValues

/-- No brace opens an object, since there is none. -/
theorem along_terminals :
    Along Terminal.kind (fun opens u => u.kind = .punctuator '{' → opens = false) [] none
      printed.terminals := by
  have hcuts : Cuts [] printed.slots := cuts_flatMap fun d _ => cuts_definition d
  obtain ⟨last, -, hpieces⟩ := hcuts none rfl
  have hfloat := hpieces [.float ⟨0⟩]
  rw [slotPieces_of_heldValues h.heldValues, piecesFrom_float [] rfl] at hfloat
  exact along_of_float h.not_float hfloat

end Prints

/-! ## Literals in the places of names -/

section Row

variable {document : List Char}

theorem mem_runs_of_runNamed? {t : Source.Token} {run : List Source.Token}
    (h : runNamed? document t = some run) : run ∈ (mask document).runs := by
  unfold runNamed? at h
  split at h
  · obtain ⟨i, -, hi⟩ := Option.bind_eq_some_iff.mp h
    exact List.mem_of_getElem? hi
  · contradiction

/-- The token that a terminal is written as stands for the same literal. -/
theorem opensAt_of_writtenAs {style : String → List Char → Prop} {opens : Bool}
    {t : Source.Token} {u : Terminal} (htu : WrittenAs style t u)
    (h : OpensAt document opens u.token) : OpensAt document opens t := by
  by_cases hk : t.kind = .name
  · obtain ⟨kind, text⟩ := t
    obtain ⟨-, hkind, htext⟩ := htu
    obtain rfl : kind = .name := hk
    cases u with
    | name s =>
      obtain rfl : text = s.toList := htext
      exact h
    | _ => contradiction
  · exact opensAt_of_none (by_contra fun hsome => hk (kind_of_runNamed? hsome)) opens

variable (hruns : ∀ run ∈ (mask document).runs, IsLiteralValue run)
include hruns

/-- A text that is written token by token is written with the literals in the places of their
names afterwards. -/
theorem written_restored {formatted : List Char} {ts : List Source.Token}
    (h : Written formatted (ts.map .kept)) :
    Written ((mask document).unmask formatted) (ts.map (restored (runNamed? document))) := by
  rw [unmask_eq]
  refine (written_unmask h (fun t _ => unmaskLexeme_mask document t) fun t _ run hrun => ?_).1
  have hmem := mem_runs_of_runNamed? hrun
  exact ⟨kind_of_runNamed? (hrun ▸ Option.some_ne_none run),
    (hruns run hmem).isLiteral (mem_tokens_of_mem_runs hmem)⟩

/-- Masking finds the pieces again. -/
theorem pieces_restored {printed : Grammar.Document} (hprinted : Prints printed)
    (hp : Restorable document printed.terminals) {ts : List Source.Token}
    (hts : List.Forall₂ (WrittenAs Printed) ts printed.terminals) :
    pieces Source.Token.kind ((ts.map (restored (runNamed? document))).flatMap Piece.all) =
      ts.map (restored (runNamed? document)) := by
  have hkind : ∀ u t, WrittenAs Printed t u → Terminal.kind u = Source.Token.kind t :=
    fun u t htu => htu.kind.symm
  refine piecesFrom_of_along List.not_mem_nil (fun run hrun => ?_) ?_ ?_
  · obtain ⟨t, -, ht⟩ := List.mem_map.mp hrun
    rw [restored] at ht
    split at ht
    · next r hr =>
      obtain rfl := Piece.held.inj ht
      exact (hruns _ (mem_runs_of_runNamed? hr)).isHeldRow
    · contradiction
  · exact along_restored.mpr
      (hp.along.forall₂ hkind (fun _ _ _ htu => opensAt_of_writtenAs htu) hts.flip)
  · refine along_restored.mpr ?_
    have hfloats : Along Terminal.kind (fun _ u => u.kind ≠ .float) [] none printed.terminals :=
      .of_forall fun u hu _ => hprinted.not_float u hu
    refine (hfloats.and hprinted.along_terminals).forall₂ hkind (fun opens u t htu hu => ?_)
      hts.flip
    rw [restored]
    split
    · trivial
    · rwa [hkind u t htu] at hu

end Row

/-! ## Canonical forms -/

/-- **Canonical forms**, if the objects of a text are object values and its strings can be read:
the printed document, with the literals in the places of their names. -/
theorem exists_printed_of_canonicalize {layout : Layout} {text out : String}
    (h : canonicalize layout text = .ok out)
    (hruns : ∀ run ∈ (mask text.toList).runs, IsLiteralValue run)
    (hs : ∀ t ∈ keptStrings text.toList, ∃ u, Reads t u) :
    ∃ parsed, Grammar.parse (mask text.toList).text = .ok parsed ∧
      out.toList = (mask text.toList).unmask (print layout.indent.toNat parsed.shown).toList ∧
      Prints parsed.shown ∧ Restorable text.toList parsed.shown.terminals ∧
      List.Forall₂ (fun t s => Reads t (.string s)) (keptStrings text.toList)
        (strings parsed.terminals) := by
  obtain ⟨parsed, hparse, hout⟩ := canonicalize_eq_ok_iff.mp h
  obtain ⟨hparsed, hnone, hstrings⟩ := restorable_of_parse hruns hs hparse
  -- The printer shows the document without the variables of subscriptions that have no name.
  have hp := hparsed.trim (trimmed_shown parsed)
  refine ⟨parsed, hparse, by rwa [print_shown], ?_, hp, hstrings⟩
  exact ⟨(exists_of_parse hparse).1.shown, parsed.shown_showsVariables, hp.printable,
    List.flatMap_eq_nil_iff.mpr fun slot hslot =>
      List.flatMap_eq_nil_iff.mp hnone slot (mem_slots_of_shown hslot)⟩

end QueryDoc
