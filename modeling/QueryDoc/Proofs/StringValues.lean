import QueryDoc.Proofs.Acceptance
import QueryDoc.Proofs.Printed
import QueryDoc.Proofs.Grammar.Reprinting

/-!
# QueryDoc.Proofs.StringValues

What becomes of the strings of a text in its canonical form (`readsStrings_canonicalize`): those
that are printed are read as `reprinted` says, and the defaults of variables that the printer
leaves out are gone. The strings are the same ones exactly if nothing is left out and each of
them is steady.

This asks of the text that its strings are whole and that what is held back from it are values,
as in every text whose tokens the grammar derives.
-/

namespace QueryDoc

open Grammar Source

/-- The strings of a text outside of its objects are read as these values. -/
def ReadsStrings (text : String) (values : List String) : Prop :=
  List.Forall₂ (fun t s => Reads t (.string s)) (keptStrings text.toList) values

theorem ReadsStrings.unique {text : String} {values values' : List String}
    (h : ReadsStrings text values) (h' : ReadsStrings text values') : values = values' :=
  List.right_unique_forall₂' (fun _ _ _ hs hs' => Terminal.string.inj (hs.unique hs')) h h'

/-- The token of a printed string is read as what the printer makes of the string. -/
theorem reads_reprinted {t : Source.Token} {s : String} (h : WrittenAs Printed t (.string s)) :
    Reads t (.string (reprinted s)) := by
  obtain ⟨kind, text⟩ := t
  obtain ⟨-, hkind, indent, depth, htext⟩ := h
  obtain rfl : kind = .string := hkind
  obtain rfl : text = (stringText indent depth s).toList := htext
  rw [← toSource_printedToken]
  exact .token (isExact_printedToken indent depth s) (terminal?_printedToken indent depth s)

/-- Literals take no part in the strings that stay. -/
theorem filterMap_string?_restored (document : List Char) (ts : List Source.Token) :
    (ts.map (restored (runNamed? document))).filterMap Piece.string? = stringTokens ts := by
  induction ts with
  | nil => rfl
  | cons t ts ih =>
    rw [List.map_cons, List.filterMap_cons, ih, stringTokens, stringTokens]
    cases hrun : runNamed? document t with
    | none =>
      rw [restored_of_none hrun, Piece.string?]
      by_cases hk : t.kind = .string <;> simp [hk]
    | some run =>
      have hk : t.kind = .name := kind_of_runNamed? (hrun ▸ Option.some_ne_none run)
      rw [restored, hrun, List.filter_cons_of_neg (by simp [hk])]
      rfl

/-! ## Texts that the grammar derives -/

/-- A row of tokens that spells a float or an object is a literal value. -/
theorem isLiteralValue_of_reads {document : List Char} {run : List Source.Token} {v : Grammar.Value}
    (hv : v.IsHeld) (h : List.Forall₂ Reads run v.terminals)
    (hrun : ∀ t ∈ run, t ∈ tokens document) : IsLiteralValue run := by
  obtain ⟨x, rfl⟩ | ⟨fields, rfl⟩ := hv
  · obtain ⟨t, rest, ht, hrest, rfl⟩ := List.forall₂_cons_right_iff.mp h
    obtain rfl := List.forall₂_nil_right_iff.mp hrest
    exact .inr ⟨t, rfl, ht.kind_eq⟩
  · refine .inl ⟨⟨fields, h.imp fun _ _ hread => hread.kind_eq⟩, fun t ht hk => ?_⟩
    obtain ⟨u, -, hread⟩ := exists_mem_of_forall₂ h.flip ht
    cases hread with
    | token hexact _ =>
      exact (isExact_iff.mp hexact).isClosed hk
        (not_hasBareReturn_of_mem_tokens hexact (hrun _ ht))
    | int _ => contradiction
    | float _ => contradiction

/-- What is held back from a text that the grammar derives are values. -/
theorem isLiteralValue_of_derives {document : List Char} (h : Derives (tokens document)) :
    ∀ run ∈ (mask document).runs, IsLiteralValue run := by
  obtain ⟨whole, -, hreads⟩ := h
  intro run hrun
  obtain ⟨v, hv, hspells⟩ := exists_mem_of_forall₂ (forall₂_runs hreads).flip hrun
  exact isLiteralValue_of_reads (isHeld_of_mem_slots hv) hspells (mem_tokens_of_mem_runs hrun)

theorem mem_tokens_of_mem_keptStrings {document : List Char} {t : Source.Token}
    (h : t ∈ keptStrings document) : t ∈ tokens document := by
  rw [keptStrings, filterMap_piece_mask] at h
  obtain ⟨piece, hpiece, ht⟩ := List.mem_filterMap.mp h
  cases piece with
  | kept u =>
    obtain ⟨-, hu⟩ := Option.ite_none_right_eq_some.mp ht
    exact mem_tokens_of_kept (Option.some.inj hu ▸ hpiece)
  | held run => contradiction

theorem reads_keptStrings_of_derives {document : List Char} (h : Derives (tokens document)) :
    ∀ t ∈ keptStrings document, ∃ u, Reads t u := by
  obtain ⟨whole, -, hreads⟩ := h
  intro t ht
  obtain ⟨u, -, hread⟩ := exists_mem_of_forall₂ hreads.flip (mem_tokens_of_mem_keptStrings ht)
  exact ⟨u, hread⟩

/-! ## Strings in canonical forms -/

/-- The strings of a canonical form are those of the printed row. -/
theorem readsStrings_printed {document : List Char} {parsed : Grammar.Document} {indent : Nat}
    {out : String} (hruns : ∀ run ∈ (mask document).runs, IsLiteralValue run)
    (hout : out.toList = (mask document).unmask (print indent parsed.shown).toList)
    (hprints : Prints parsed.shown) (hp : Restorable document parsed.shown.terminals) :
    ReadsStrings out ((strings parsed.shown.terminals).map reprinted) := by
  obtain ⟨ts, hts, hprinted⟩ := hprints.exists_row indent
  have hrow := written_restored hruns hts
  rw [← hout] at hrow
  rw [ReadsStrings, keptStrings, filterMap_piece_mask, hrow.tokens,
    pieces_restored hruns hprints hp hprinted, filterMap_string?_restored,
    List.forall₂_map_right_iff]
  exact (forall₂_strings (fun t u htu => htu.kind) hprinted).imp fun _ _ => reads_reprinted

/-- Strings that are printed and read again are the same as before exactly if none has been left
out and all of them are steady. -/
theorem readsStrings_iff_of_reprinted {parsed : Grammar.Document} {out : String}
    (h : ReadsStrings out ((strings parsed.shown.terminals).map reprinted)) :
    ReadsStrings out (strings parsed.terminals) ↔
      strings parsed.shown.terminals = strings parsed.terminals ∧
        ∀ s ∈ strings parsed.terminals, IsSteady s := by
  simp only [← reprinted_eq_self_iff]
  constructor
  · intro hsame
    have hmap := h.unique hsame
    have hsub : (strings parsed.shown.terminals).Sublist (strings parsed.terminals) :=
      (trimmed_shown parsed).sublist.filterMap _
    have hshown := hsub.eq_of_length (by rw [← hmap, List.length_map])
    rw [hshown] at hmap
    exact ⟨hshown, List.map_inj_left.mp (hmap.trans (List.map_id _).symm)⟩
  · rintro ⟨hshown, hall⟩
    rwa [hshown, List.map_congr_left hall, List.map_id'] at h

/-- **Strings in canonical forms**: if what is held back from a text are literal values and its
other strings are read as `values`, as they are if the grammar derives the text, then the strings
of its canonical form are those that the parser finds and the printer shows, each as it is read
after it has been printed. They are the same as before exactly if none has been left out and all of
them are steady. -/
theorem readsStrings_canonicalize (layout : Layout) {text out : String}
    (h : canonicalize layout text = .ok out) :
    ∃ parsed, Grammar.parse (mask text.toList).text = .ok parsed ∧
      (Derives (tokens text.toList) → (∀ run ∈ (mask text.toList).runs, IsLiteralValue run) ∧
        ReadsStrings text (strings parsed.terminals)) ∧
      ((∀ run ∈ (mask text.toList).runs, IsLiteralValue run) → ∀ values, ReadsStrings text values →
        strings parsed.terminals = values ∧
        ReadsStrings out ((strings parsed.shown.terminals).map reprinted) ∧
        (ReadsStrings out values ↔
          strings parsed.shown.terminals = values ∧ ∀ s ∈ values, IsSteady s)) := by
  obtain ⟨parsed, hparse, -⟩ := canonicalize_eq_ok_iff.mp h
  -- What the masked text is parsed as does not depend on what is asked of the text.
  have hprinted (hruns : ∀ run ∈ (mask text.toList).runs, IsLiteralValue run)
      (hread : ∀ t ∈ keptStrings text.toList, ∃ u, Reads t u) :
      ReadsStrings text (strings parsed.terminals) ∧
        ReadsStrings out ((strings parsed.shown.terminals).map reprinted) := by
    obtain ⟨parsed', hparse', hout, hprints, hp, hstrings⟩ :=
      exists_printed_of_canonicalize h hruns hread
    obtain rfl : parsed' = parsed := Except.ok.inj (hparse'.symm.trans hparse)
    exact ⟨hstrings, readsStrings_printed hruns hout hprints hp⟩
  refine ⟨parsed, hparse, fun hderives => ?_, fun hruns values hs => ?_⟩
  · have hruns := isLiteralValue_of_derives hderives
    exact ⟨hruns, (hprinted hruns (reads_keptStrings_of_derives hderives)).1⟩
  · obtain ⟨hstrings, hagain⟩ := hprinted hruns fun t ht => by
      obtain ⟨s, -, hts⟩ := exists_mem_of_forall₂ hs.flip ht
      exact ⟨.string s, hts⟩
    obtain rfl : strings parsed.terminals = values := hstrings.unique hs
    exact ⟨rfl, hagain, readsStrings_iff_of_reprinted hagain⟩

/-- A text with a character outside the basic plane, and a string that is not printed. -/
def emojiSubscription : String :=
  "subscription($s: String = \"x\") \x7b emit(text: \"😀\", rate: 1.5) \x7d"

def canonicalEmoji : String :=
  "subscription \x7b\n  emit(text: \"\\u128512\", rate: 1.5)\n\x7d\n"

theorem readsStrings_emojiSubscription :
    canonicalize .standard emojiSubscription = .ok canonicalEmoji ∧
      ReadsStrings emojiSubscription ["x", "😀"] ∧ ReadsStrings canonicalEmoji ["ኅ12"] ∧
      ¬ ReadsStrings canonicalEmoji ["x", "😀"] := by
  have h : canonicalize .standard emojiSubscription = .ok canonicalEmoji := by decide +kernel
  have hkept : keptStrings emojiSubscription.toList =
      [⟨.string, ['"', 'x', '"']⟩, ⟨.string, ['"', '😀', '"']⟩] := by decide +kernel
  have hread (c : Char) (hc : splitToken? '"' [c, '"'] = some (⟨.string, ['"', c, '"']⟩, []))
      (hvalue : Token.terminal? ⟨.string, ['"', c, '"']⟩ = some (.string (String.singleton c))) :
      Reads ⟨.string, ['"', c, '"']⟩ (.string (String.singleton c)) :=
    .token (t := ⟨.string, ['"', c, '"']⟩) ⟨'"', _, rfl, hc⟩ hvalue
  have hs : ReadsStrings emojiSubscription ["x", "😀"] := by
    rw [ReadsStrings, hkept]
    exact .cons (hread 'x' (by decide +kernel) (by decide +kernel))
      (.cons (hread '😀' (by decide +kernel) (by decide +kernel)) .nil)
  have hfloats : ∀ run ∈ (mask emojiSubscription.toList).runs,
      run.map Source.Token.kind = [.float] := by decide +kernel
  have hruns : ∀ run ∈ (mask emojiSubscription.toList).runs, IsLiteralValue run := fun run hrun =>
    .inr (by simpa [List.map_eq_singleton_iff] using hfloats run hrun)
  obtain ⟨parsed, hparse, -, hcanonical⟩ := readsStrings_canonicalize .standard h
  obtain ⟨-, hout, hsame⟩ := hcanonical hruns _ hs
  have hshown : (Grammar.parse (mask emojiSubscription.toList).text).toOption.map (fun d =>
      strings d.shown.terminals) = some ["😀"] := by decide +kernel
  have hprinted : reprinted "😀" = "ኅ12" := by decide +kernel
  rw [hparse] at hshown
  replace hshown : strings parsed.shown.terminals = ["😀"] := Option.some.inj hshown
  rw [hshown, List.map_singleton, hprinted] at hout
  refine ⟨h, hs, hout, fun hall => ?_⟩
  have hlost := (hsame.mp hall).1
  rw [hshown] at hlost
  exact absurd hlost (by decide)

end QueryDoc
