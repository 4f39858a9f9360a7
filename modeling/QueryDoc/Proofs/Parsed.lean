import QueryDoc.Proofs.Canonicalization
import QueryDoc.Proofs.Grammar.Shown

/-!
# QueryDoc.Proofs.Parsed

What the parser finds in a masked text, and what the names in it stand for.

If every object that has been held back is an object value, each placeholder of an object stands
where a brace opens one, also after it has grown together with its neighbours
(`along_masked`), and no float and no object is left for the parser. `Restorable` collects what
follows for the terminals of the parsed document, and is kept when the printer leaves out
variables (`Restorable.trim`).
-/

namespace QueryDoc

open Grammar Source

/-- A string that stays where it is. -/
def Source.Piece.string? : Piece Source.Token → Option Source.Token
  | kept t => if t.kind = .string then some t else none
  | held _ => none

section Masked

variable {document : List Char}

/-! ## What names stand for -/

theorem kind_of_runNamed? {t : Source.Token} (h : runNamed? document t ≠ none) :
    t.kind = .name := by
  by_contra hk
  rw [runNamed?, if_neg hk] at h
  contradiction

theorem runNamed?_of_placeholderIndex? {t : Source.Token}
    (h : placeholderIndex? (placeholderStem document) t.text = none) :
    runNamed? document t = none := by
  rw [runNamed?, h]
  exact ite_self none

theorem placeholderIndex?_of_runNamed? {t : Source.Token} (h : runNamed? document t ≠ none) :
    placeholderIndex? (placeholderStem document) t.text ≠ none :=
  fun hnone => h (runNamed?_of_placeholderIndex? hnone)

theorem restored_of_none {σ : Source.Token → Option (List Source.Token)} {t : Source.Token}
    (h : σ t = none) : restored σ t = .kept t := by rw [restored, h]

/-- A literal stands where its name does, as a name. -/
theorem kind_restored (t : Source.Token) :
    (restored (runNamed? document) t).kind Source.Token.kind = t.kind := by
  cases h : runNamed? document t with
  | none => rw [restored_of_none h, Piece.kind]
  | some run =>
    have hk : t.kind = .name := kind_of_runNamed? (h ▸ Option.some_ne_none run)
    rw [restored, h, Piece.kind, hk]

theorem along_restored {P : Bool → Piece Source.Token → Prop} {nesting : List Bracket}
    {p : Option Source.TokenKind} {ts : List Source.Token} :
    Along (Piece.kind Source.Token.kind) P nesting p (ts.map (restored (runNamed? document))) ↔
      Along Source.Token.kind (fun opens t => P opens (restored (runNamed? document) t))
        nesting p ts := by
  rw [along_map]
  simp only [kind_restored]

/-- The pieces of a document are what the tokens of its masked text stand for. -/
theorem map_restored_maskedTokens (document : List Char) :
    (maskedTokens (mask document).stem 0 (mask document).segments).map
      (restored (runNamed? document)) = pieces Source.Token.kind (tokens document) := by
  have hrow := List.forall₂_same.mpr fun t
    (_ : t ∈ maskedTokens (mask document).stem 0 (mask document).segments) => Eq.refl t
  rw [maskedTokens_mask] at hrow
  have hkeeps := forall₂_restored (R := Eq) ⟨fun _ _ h => h ▸ rfl, fun _ _ h _ => h.symm⟩ 0
    (fun t => mem_tokens_of_kept) (fun k run hk => by rwa [Nat.zero_add, runs_mask]) hrow
  rw [maskedTokens_mask, ← eq_of_forall₂_keeps hkeeps]

theorem mem_tokens_of_mem_runs {run : List Source.Token} (h : run ∈ (mask document).runs) :
    ∀ t ∈ run, t ∈ tokens document := by
  intro t ht
  rw [← flatMap_all_pieces Source.Token.kind (tokens document)]
  exact List.mem_flatMap.mpr ⟨.held run, mem_heldRuns.mp (runs_mask document ▸ h), ht⟩

/-- Where a literal belongs that a token stands for. -/
def OpensAt (document : List Char) (opens : Bool) (t : Source.Token) : Prop :=
  (restored (runNamed? document) t).Opens Source.Token.kind opens

theorem opensAt_of_none {t : Source.Token} (h : runNamed? document t = none) (opens : Bool) :
    OpensAt document opens t := by
  rw [OpensAt, restored_of_none h]
  trivial

/-! ## The masked text -/

/-- Names stand for objects where a brace opens one, and nothing is held back from the masked
text. -/
theorem along_masked (h : ∀ run ∈ (mask document).runs, IsLiteralValue run) :
    Along Source.Token.kind (OpensAt document) [] none (tokens (mask document).text) ∧
      (mask (mask document).text).runs = [] := by
  have hruns : ∀ run, .held run ∈ pieces Source.Token.kind (tokens document) →
      IsHeldRow Source.Token.kind run := fun run hrun =>
    (h run (runs_mask document ▸ mem_heldRuns.mpr hrun)).isHeldRow
  obtain ⟨halong, hholds⟩ := along_piecesFrom (p := none) List.not_mem_nil hruns
  rw [← pieces, ← map_restored_maskedTokens] at halong hholds
  constructor
  · exact (merged_mask document).along
      (fun opens u _ hnone => opensAt_of_none (runNamed?_of_placeholderIndex? hnone) opens)
      (along_restored.mp halong)
  · refine runs_mask_text ((heldRuns_piecesFrom_eq_nil_iff _ _ _ _ _).mpr ?_)
    simpa [Function.comp_def, kind_restored] using hholds

/-- The tokens of strings that stay, those of a text outside of its objects. -/
def keptStrings (document : List Char) : List Source.Token :=
  ((mask document).segments.filterMap Segment.piece?).filterMap Piece.string?

theorem keptStrings_eq_nil
    (h : ∀ t, .kept (.token t) ∈ (mask document).segments → t.kind ≠ .string) :
    keptStrings document = [] := by
  refine List.filterMap_eq_nil_iff.mpr fun p hp => ?_
  obtain ⟨segment, hsegment, hpiece⟩ := List.mem_filterMap.mp hp
  cases segment with
  | kept l =>
    cases l with
    | ignored text => simp [Segment.piece?, Lexeme.token?] at hpiece
    | token t =>
      obtain rfl : Piece.kept t = p := by simpa [Segment.piece?, Lexeme.token?] using hpiece
      exact if_neg (h t hsegment)
  | held run =>
    obtain rfl := Option.some.inj hpiece
    rfl

theorem stringTokens_nameHeld (stem : List Char) (i : Nat) (ps : List (Piece Source.Token)) :
    stringTokens (nameHeld (placeholderToken stem) i ps) = ps.filterMap Piece.string? := by
  induction ps generalizing i with
  | nil => rfl
  | cons p ps ih =>
    cases p with
    | kept t =>
      rw [nameHeld, List.filterMap_cons, Piece.string?, ← ih i]
      by_cases hk : t.kind = .string <;> simp [stringTokens, hk]
    | held run =>
      rw [nameHeld, List.filterMap_cons, Piece.string?, ← ih (i + 1)]
      rfl

/-- The strings of the masked text are those of the document that stay. -/
theorem stringTokens_masked (document : List Char) :
    stringTokens (tokens (mask document).text) = keptStrings document := by
  rw [(merged_mask document).strings_eq, maskedTokens_eq_nameHeld, keptStrings]
  exact stringTokens_nameHeld _ 0 _

/-- A name that stands for a literal is found in one place of the masked text. -/
theorem count_masked_le {t : Source.Token} (h : runNamed? document t ≠ none) :
    (tokens (mask document).text).count t ≤ 1 := by
  refine ((merged_mask document).count_le (placeholderIndex?_of_runNamed? h)).trans ?_
  by_cases ht : t ∈ maskedTokens (mask document).stem 0 (mask document).segments
  · rw [maskedTokens_mask] at ht
    obtain hkept | ⟨k, -, rfl⟩ := mem_nameHeld ht
    · exact absurd (runNamed?_of_mem_tokens (mem_tokens_of_kept hkept)) h
    · rw [Nat.zero_add]
      exact count_placeholderToken_le document k
  · rw [List.count_eq_zero_of_not_mem ht]
    exact Nat.zero_le 1

end Masked

/-! ## Terminals -/

section Terminals

/-- A token of a text is read as a terminal that can be printed. -/
theorem isPrintable_of_reads {cs : List Char} {t : Source.Token} {u : Terminal}
    (ht : t ∈ tokens cs) (h : Reads t u) : u.IsPrintable := by
  have hform : t.HasForm := hasForm_of_mem_lexemes (Source.mem_lexemes_of_mem_tokens ht)
  have hk := h.kind_eq
  cases u with
  | mark c =>
    rw [Source.Token.HasForm, hk] at hform
    exact hform.1
  | name s =>
    rw [h.eq_name] at hform
    exact hform
  | _ => trivial

/-- A name is read as the terminal that it spells. -/
theorem token_of_reads {t : Source.Token} {u : Terminal} (h : Reads t u) (hk : t.kind = .name) :
    u.token = t := by
  obtain ⟨kind, text⟩ := t
  obtain rfl : kind = .name := hk
  rw [h.name_eq, Terminal.token, Terminal.kind, Terminal.spelling, String.toList_ofList]

theorem count_token_le_of_reads {ts : List Source.Token} {us : List Terminal}
    (h : List.Forall₂ Reads ts us) {t : Source.Token} (hk : t.kind = .name) :
    (us.map Terminal.token).count t ≤ ts.count t := by
  have hspelled : List.Forall₂ (fun t v => ∃ u, Reads t u ∧ u.token = v) ts
      (us.map Terminal.token) :=
    List.forall₂_map_right_iff.mpr (h.imp fun t u htu => ⟨u, htu, rfl⟩)
  refine count_le_of_forall₂ ?_ hspelled
  rintro v ⟨u, hvu, rfl⟩
  exact (token_of_reads hvu (hvu.kind_eq.trans hk)).symm

/-- The strings among terminals. -/
def strings (us : List Terminal) : List String :=
  us.filterMap fun
    | .string s => some s
    | _ => none

theorem mem_strings {s : String} {us : List Terminal} : s ∈ strings us ↔ .string s ∈ us := by
  simp only [strings, List.mem_filterMap]
  constructor
  · rintro ⟨u, hu, hs⟩
    cases u <;> simp_all
  · exact fun h => ⟨_, h, rfl⟩

/-- The strings in a row of tokens stand for those in the row of terminals. -/
theorem forall₂_strings {R : Source.Token → Terminal → Prop} {ts : List Source.Token}
    {us : List Terminal} (hkind : ∀ t u, R t u → t.kind = u.kind) (h : List.Forall₂ R ts us) :
    List.Forall₂ (fun t s => R t (.string s)) (stringTokens ts) (strings us) := by
  induction h with
  | nil => exact .nil
  | @cons t u ts us htu _ ih =>
    have hk := hkind t u htu
    cases u with
    | string s =>
      rw [stringTokens, List.filter_cons_of_pos (by rw [hk]; rfl)]
      exact .cons htu ih
    | _ =>
      rw [stringTokens, List.filter_cons_of_neg (by rw [hk]; simp [Terminal.kind])]
      exact ih

/-- What is known of a row of terminals that is printed, with names in it that stand for the
literals of a document. -/
structure Restorable (document : List Char) (us : List Terminal) : Prop where
  printable : ∀ u ∈ us, u.IsPrintable
  along : Along Terminal.kind (fun opens u => OpensAt document opens u.token) [] none us
  once : ∀ t, runNamed? document t ≠ none → (us.map Terminal.token).count t ≤ 1
  room : hasRoom maxNesting (us.map Terminal.token) = true

theorem Restorable.trim {document : List Char} {us vs : List Terminal}
    (hus : Restorable document us) (h : Trimmed us vs) : Restorable document vs where
  printable u hu := hus.printable u (h.sublist.subset hu)
  along := h.along hus.along
  once t ht := ((h.sublist.map _).count_le t).trans (hus.once t ht)
  room := h.hasRoom hus.room

end Terminals

/-! ## Parsed documents -/

section Parsed

variable {document : List Char} {parsed : Grammar.Document}

/-- A text whose strings can be read is read token by token. -/
theorem forall₂_reads_of_strings {text : List Char} (h : Grammar.parse text = .ok parsed)
    (hs : ∀ t ∈ stringTokens (tokens text), ∃ u, Reads t u) :
    List.Forall₂ Reads (tokens text) parsed.terminals ∧
      hasRoom maxNesting (tokens text) = true := by
  have hcomplete := (exists_of_parse h).2.1
  have hexact : ∀ t ∈ tokens text, t.kind = .string →
      ∃ g : Grammar.Token, g.IsExact ∧ g.toSource = t := by
    intro t ht hk
    obtain ⟨u, hu⟩ := hs t (List.mem_filter.mpr ⟨ht, by rw [hk]; rfl⟩)
    cases hu with
    | token hg _ => exact ⟨_, hg, rfl⟩
    | int _ => contradiction
    | float _ => contradiction
  have hcut := tokens_eq_of_complete hcomplete (not_hasBareReturn_of_complete hcomplete hexact)
  rw [hcut]
  exact ⟨forall₂_reads_of_parse h, hasRoom_of_complete hcomplete⟩

/-- If nothing is held back from a text, there is no float and no object in its document. -/
theorem heldValues_of_runs {text : List Char} (hruns : (mask text).runs = [])
    (h : List.Forall₂ Reads (tokens text) parsed.terminals) :
    parsed.slots.flatMap Slot.heldValues = [] := by
  have hpieces := forall₂_pieces (fun t u (htu : Reads t u) => htu.kind_eq) h
  rw [pieces_terminals] at hpieces
  have hheld := forall₂_heldRuns hpieces
  rw [← runs_mask, hruns, heldRuns_slots] at hheld
  simpa using hheld

/-- **What the parser sees** of a masked text, if the strings in it can be read: these strings, no
float and no object, and the names of literals in places where they belong. -/
theorem restorable_of_parse (hruns : ∀ run ∈ (mask document).runs, IsLiteralValue run)
    (hs : ∀ t ∈ keptStrings document, ∃ u, Reads t u)
    (h : Grammar.parse (mask document).text = .ok parsed) :
    Restorable document parsed.terminals ∧ parsed.slots.flatMap Slot.heldValues = [] ∧
      List.Forall₂ (fun t s => Reads t (.string s)) (keptStrings document)
        (strings parsed.terminals) := by
  rw [← stringTokens_masked] at hs
  obtain ⟨halong, hnone⟩ := along_masked hruns
  obtain ⟨hreads, hroom⟩ := forall₂_reads_of_strings h hs
  have hstrings := forall₂_strings (fun t u htu => htu.kind_eq) hreads
  rw [stringTokens_masked] at hstrings
  refine ⟨⟨fun u hu => ?_, ?_, fun t ht => ?_, ?_⟩, heldValues_of_runs hnone hreads, hstrings⟩
  · obtain ⟨t, ht, htu⟩ := exists_mem_of_forall₂ hreads hu
    exact isPrintable_of_reads ht htu
  · refine halong.forall₂ (fun t u htu => htu.kind_eq) (fun opens t u htu ht => ?_) hreads
    by_cases hk : t.kind = .name
    · rwa [token_of_reads htu hk]
    · refine opensAt_of_none ?_ opens
      by_contra hsome
      exact hk (htu.kind_eq.trans (kind_of_runNamed? hsome))
  · exact (count_token_le_of_reads hreads (kind_of_runNamed? ht)).trans (count_masked_le ht)
  · have hkinds : (tokens (mask document).text).map Source.Token.kind =
        (parsed.terminals.map Terminal.token).map Source.Token.kind := by
      rw [List.map_map]
      exact forall₂_kind_iff.mp (hreads.imp fun _ _ htu => htu.kind_eq)
    rwa [← hasRoom_congr maxNesting hkinds]

end Parsed

end QueryDoc
