import QueryDoc.Canonical
import QueryDoc.Proofs.Grammar.Reading

/-!
# QueryDoc.Proofs.Acceptance

What an accepted document may hold. The parser sees only names in the places of floats and
objects, so that a document can be accepted whatever stands in them, and wherever they stand.

`LiteralsFit` says that nothing is wrong with the literals of an accepted document: each of
them stands where the grammar expects a value, and is one. `literalsFit_iff` says when that
is so: exactly if the document itself is derived by the grammar, its literals included, and
nothing touches a literal.
-/

namespace QueryDoc

open Grammar Source

/-! ## Literals that fit -/

/-- The `i`-th placeholder as a name in a parsed document. -/
def placeholderName (document : List Char) (i : Nat) : String :=
  String.ofList (placeholder (placeholderStem document) i)

/-- The name in place of the `i`-th run has been read as a value, and the run is the row of
tokens of a value, constant if the grammar asks for that in this place. -/
def StandsAsValue (document : List Char) (parsed : Grammar.Document) (i : Nat)
    (run : List Source.Token) : Prop :=
  ∃ constant, ∃ v w : Grammar.Value, Slot.value constant v ∈ parsed.slots ∧
    placeholderName document i ∈ v.words ∧ List.Forall₂ Reads run w.terminals ∧
    (constant = true → w.isConstant = true)

/-- What is held back from a document fits a document with names in its places. -/
structure LiteralsFit (document : List Char) (context : Grammar.Document) : Prop where
  wellFormed : context.WellFormed
  /-- The context is the document with one name in place of each run. -/
  reads : List.Forall₂ Reads
    (maskedTokens (mask document).stem 0 (mask document).segments) context.terminals
  /-- Each run is a value where the grammar expects one. -/
  stands : ∀ i run, (mask document).runs[i]? = some run → StandsAsValue document context i run

/-- The tokens of the masked text are for the parser those of the document with one name in
place of each run. -/
def ParserAgrees (document : List Char) : Prop :=
  ((scan (mask document).text).items.map Prod.fst).map Grammar.Token.toSource =
    maskedTokens (mask document).stem 0 (mask document).segments

/-! ## Values for placeholders -/

/-- The value that a name stands for as the placeholder of one of these values. -/
def valueNamed? (document : List Char) (values : List Grammar.Value) (s : String) :
    Option Grammar.Value :=
  (placeholderIndex? (placeholderStem document) s.toList).bind fun i => values[i]?

theorem valueNamed?_placeholderName (document : List Char) (values : List Grammar.Value)
    (i : Nat) : valueNamed? document values (placeholderName document i) = values[i]? := by
  simp [valueNamed?, placeholderName, placeholderIndex?_placeholder]

theorem valueNamed?_of_mem_tokens {document : List Char} (values : List Grammar.Value)
    {s : String} (h : ⟨.name, s.toList⟩ ∈ tokens document) :
    valueNamed? document values s = none := by
  rw [valueNamed?, placeholderIndex?_of_mem_tokens h, Option.bind_none]

theorem placeholderToken_inj {document : List Char} {i k : Nat}
    (h : placeholderToken (placeholderStem document) i =
      placeholderToken (placeholderStem document) k) : i = k := by
  have htext := congrArg (fun t => placeholderIndex? (placeholderStem document) t.text) h
  simpa [placeholderToken, placeholderIndex?_placeholder] using htext

/-- A placeholder is no token of the document. -/
theorem placeholderToken_not_mem (document : List Char) (i : Nat) :
    placeholderToken (placeholderStem document) i ∉ tokens document := by
  intro h
  have hnone := placeholderIndex?_of_mem_tokens h
  rw [placeholderToken, placeholderIndex?_placeholder] at hnone
  contradiction

/-- One value for each member of a row. -/
theorem exists_list {as : List α} {P : Nat → α → β → Prop}
    (h : ∀ i a, as[i]? = some a → ∃ b, P i a b) :
    ∃ bs : List β, ∀ i a, as[i]? = some a → ∃ b, bs[i]? = some b ∧ P i a b := by
  choose f hf using fun i : Fin as.length => h i as[i] (List.getElem?_eq_getElem i.isLt)
  refine ⟨List.ofFn f, fun i a ha => ?_⟩
  obtain ⟨hi, rfl⟩ := List.getElem?_eq_some_iff.mp ha
  exact ⟨f ⟨i, hi⟩, by simp [hi], hf ⟨i, hi⟩⟩

/-! ## From the parsed document to the whole one -/

section Parsed

variable {document : List Char} {parsed : Grammar.Document}

/-- Each name of the parsed document is one of the document itself, or the placeholder of a
run. -/
theorem name_cases (h : List.Forall₂ Reads
      (maskedTokens (mask document).stem 0 (mask document).segments) parsed.terminals)
    {s : String} (hs : .name s ∈ parsed.terminals) :
    ⟨.name, s.toList⟩ ∈ tokens document ∨
      ∃ i, i < (mask document).runs.length ∧ s = placeholderName document i := by
  obtain ⟨t, ht, hreads⟩ := exists_mem_of_forall₂ h hs
  rw [maskedTokens_mask] at ht
  rw [hreads.eq_name] at ht
  cases mem_nameHeld ht with
  | inl hkept => exact Or.inl (mem_tokens_of_kept hkept)
  | inr hname =>
    obtain ⟨k, hk, hname⟩ := hname
    refine Or.inr ⟨k, by rwa [runs_mask], ?_⟩
    have htext : s.toList = placeholder (placeholderStem document) k := by
      simpa [placeholderToken] using congrArg Source.Token.text hname
    rw [placeholderName, ← htext, String.ofList_toList]

/-- A placeholder stands in one place of the masked tokens. -/
theorem count_placeholderToken_le (document : List Char) (i : Nat) :
    (maskedTokens (mask document).stem 0 (mask document).segments).count
      (placeholderToken (placeholderStem document) i) ≤ 1 := by
  rw [maskedTokens_mask]
  have hkept : .kept (placeholderToken (placeholderStem document) i) ∉
      pieces Token.kind (tokens document) := fun hmem =>
    placeholderToken_not_mem document i (mem_tokens_of_kept hmem)
  have hle := count_nameHeld_le (fun _ _ => placeholderToken_inj) 0 hkept
  rwa [if_neg (Nat.not_lt_zero i)] at hle

/-- The placeholder of a run stands in one place of the parsed document. -/
theorem count_placeholderName_le (h : List.Forall₂ Reads
      (maskedTokens (mask document).stem 0 (mask document).segments) parsed.terminals) (i : Nat) :
    parsed.terminals.count (.name (placeholderName document i)) ≤ 1 := by
  have hname : (placeholderName document i).toList = placeholder (placeholderStem document) i :=
    String.toList_ofList
  refine (count_le_of_forall₂ (fun t ht => ?_) h).trans (count_placeholderToken_le document i)
  rw [ht.eq_name, hname]
  rfl

/-- A run is a value, and a constant one if its placeholder stands in a constant place. -/
def Suits (document : List Char) (parsed : Grammar.Document) (i : Nat)
    (run : List Source.Token) (w : Grammar.Value) : Prop :=
  List.Forall₂ Reads run w.terminals ∧
    ∀ v, Slot.value true v ∈ parsed.slots → placeholderName document i ∈ v.words →
      w.isConstant = true

/-- If the literals fit, there is a value for each of them. -/
theorem LiteralsFit.exists_values (hfit : LiteralsFit document parsed) :
    ∃ values : List Grammar.Value, ∀ i run, (mask document).runs[i]? = some run →
      ∃ w, values[i]? = some w ∧ Suits document parsed i run w := by
  refine exists_list fun i run hrun => ?_
  obtain ⟨constant, v, w, hv, hword, hreads, hconstant⟩ := hfit.stands i run hrun
  refine ⟨w, hreads, fun v' hv' hword' => hconstant ?_⟩
  have hsame := slot_unique _ (count_placeholderName_le hfit.reads i) hv hv'
    ((mem_terminals_iff _ _).mpr (Or.inl hword)) ((mem_terminals_iff _ _).mpr (Or.inl hword'))
  cases hsame
  rfl

/-- No label of the parsed document is a placeholder. -/
theorem LiteralsFit.valueNamed?_label (hfit : LiteralsFit document parsed)
    (values : List Grammar.Value) {slot : Slot} (hslot : slot ∈ parsed.slots) {s : String}
    (hs : s ∈ slot.labels) : valueNamed? document values s = none := by
  have hterminal : .name s ∈ slot.terminals := (mem_terminals_iff s slot).mpr (Or.inr hs)
  cases name_cases hfit.reads (List.mem_flatMap.mpr ⟨slot, hslot, hterminal⟩) with
  | inl htoken => exact valueNamed?_of_mem_tokens values htoken
  | inr hname =>
    obtain ⟨i, hi, rfl⟩ := hname
    obtain ⟨constant, v, w, hv, hword, -⟩ :=
      hfit.stands i _ (List.getElem?_eq_getElem hi)
    have hsame := slot_unique _ (count_placeholderName_le hfit.reads i) hv hslot
      ((mem_terminals_iff _ _).mpr (Or.inl hword)) hterminal
    subst hsame
    exact absurd hs (not_mem_labels _ (count_placeholderName_le hfit.reads i) hv hword)

/-- If the literals fit, the tokens of the whole document are derived by the grammar. -/
theorem LiteralsFit.derives (hfit : LiteralsFit document parsed) :
    Derives (tokens document) := by
  obtain ⟨values, hvalues⟩ := hfit.exists_values
  have hconstant : ∀ v, Slot.value true v ∈ parsed.slots → ∀ s ∈ v.words,
      ∀ w ∈ valueNamed? document values s, w.isConstant = true := by
    intro v hv s hs w hw
    have hterminal : .name s ∈ parsed.terminals :=
      List.mem_flatMap.mpr ⟨_, hv, (mem_terminals_iff s _).mpr (Or.inl hs)⟩
    cases name_cases hfit.reads hterminal with
    | inl htoken =>
      rw [valueNamed?_of_mem_tokens values htoken] at hw
      contradiction
    | inr hname =>
      obtain ⟨i, hi, rfl⟩ := hname
      obtain ⟨w', hw', hsuits⟩ := hvalues i _ (List.getElem?_eq_getElem hi)
      rw [valueNamed?_placeholderName, hw'] at hw
      cases hw
      exact hsuits.2 v hv hs
  obtain ⟨filled, hfilled, hslots⟩ := exists_filled hfit.wellFormed hconstant
  refine ⟨filled, hfilled, ?_⟩
  rw [Document.terminals, hslots, slotTerminals_fill parsed.slots fun slot hslot s hs =>
    hfit.valueNamed?_label values hslot hs, ← flatMap_all_pieces Source.Token.kind
    (tokens document)]
  have hreads := hfit.reads
  rw [maskedTokens_mask] at hreads
  refine forall₂_expand (placeholderName document) 0 (fun k u hu => hu.name_eq) hreads
    (fun t s ht hs => ?_) fun k run hrun => ?_
  · exact valueNamed?_of_mem_tokens values (hs.eq_name ▸ mem_tokens_of_kept ht)
  · rw [← runs_mask] at hrun
    obtain ⟨w, hw, hsuits⟩ := hvalues k run hrun
    exact ⟨w, by rw [Nat.zero_add, valueNamed?_placeholderName, hw], hsuits.1⟩

/-- If the parser has seen one name in place of each run, nothing touches a run. -/
theorem untouched_of_agrees (hcomplete : (scan (mask document).text).complete = true)
    (h : ParserAgrees document) : Untouched (mask document).segments := by
  have hfree : ∀ t ∈ (scan (mask document).text).items.map Prod.fst, ¬ t.HasBareReturn := by
    intro t ht
    have hmem := List.mem_map_of_mem (f := Grammar.Token.toSource) ht
    rw [ParserAgrees] at h
    rw [h, maskedTokens_mask] at hmem
    cases mem_nameHeld hmem with
    | inl hkept =>
      exact not_hasBareReturn_of_mem_tokens (isExact_of_mem_scanFrom ht)
        (mem_tokens_of_kept hkept)
    | inr hname =>
      obtain ⟨k, -, hname⟩ := hname
      intro hreturn
      have hkind := congrArg Source.Token.kind hname
      rw [Grammar.Token.toSource, hreturn.1] at hkind
      contradiction
  have hagree := (tokens_eq_of_complete hcomplete hfree).trans h
  exact (tokens_textFrom_iff (isStem_placeholderStem document) 0
    (isMasking_segments document)).mp hagree

end Parsed

/-! ## From the whole document to the parsed one -/

section Derived

variable {document : List Char} {parsed whole : Grammar.Document}

/-- If nothing touches a run and all tokens can be read, the parser has seen one name in place
of each run. -/
theorem agrees_of_untouched (hcomplete : (scan (mask document).text).complete = true)
    (hu : Untouched (mask document).segments) (h : List.Forall₂ Reads
      (maskedTokens (mask document).stem 0 (mask document).segments) us) :
    ParserAgrees document := by
  have htokens : tokens (mask document).text =
      maskedTokens (mask document).stem 0 (mask document).segments :=
    (tokens_textFrom_iff (isStem_placeholderStem document) 0 (isMasking_segments document)).mpr hu
  have hexact : ∀ t ∈ tokens (mask document).text, t.kind = .string →
      ∃ g : Grammar.Token, g.IsExact ∧ g.toSource = t := by
    intro t ht hk
    rw [htokens] at ht
    obtain ⟨u, -, hreads⟩ := exists_mem_of_forall₂ h.flip ht
    cases hreads with
    | token hg _ => exact ⟨_, hg, rfl⟩
    | int _ => contradiction
    | float _ => contradiction
  have hfree := not_hasBareReturn_of_complete hcomplete hexact
  exact (tokens_eq_of_complete hcomplete hfree).symm.trans htokens

/-- Two documents of the grammar with the same terminals are the same. -/
theorem eq_of_terminals_eq (hp : parsed.WellFormed) (hw : whole.WellFormed)
    (h : parsed.terminals = whole.terminals) : parsed = whole := by
  have hparsed := (Parser.document_eq_ok_iff _ _).mpr ⟨hp, rfl⟩
  rw [h, (Parser.document_eq_ok_iff _ _).mpr ⟨hw, rfl⟩] at hparsed
  exact (Except.ok.inj hparsed).symm

/-- The name in place of a held value is a terminal of the masked document. -/
theorem name_mem_terminals {name : Nat → String} {masked : Grammar.Document}
    (hmasked : IsMasked name whole masked) {i : Nat}
    (hi : i < (whole.slots.flatMap Slot.heldValues).length) :
    .name (name i) ∈ masked.terminals := by
  have hruns : i < (heldRuns (slotPieces whole.slots)).length := by
    rwa [heldRuns_slots, List.length_map]
  have hmem := name_mem_nameHeld (fun k => Terminal.name (name k)) 0 hruns
  rwa [Nat.zero_add, ← named, ← hmasked.terminals] at hmem

/-- No label of a document that the tokens spell is a placeholder. -/
theorem placeholderName_not_mem_labels
    (h : List.Forall₂ Reads (tokens document) whole.terminals) {slot : Slot}
    (hslot : slot ∈ whole.slots) (i : Nat) : placeholderName document i ∉ slot.labels := by
  intro hlabel
  have hterminal := (mem_terminals_iff _ _).mpr (Or.inr hlabel)
  obtain ⟨t, ht, hreads⟩ := exists_mem_of_forall₂ h (List.mem_flatMap.mpr ⟨_, hslot, hterminal⟩)
  rw [hreads.eq_name, placeholderName, String.toList_ofList] at ht
  exact placeholderToken_not_mem document i ht

/-- The runs of a document that the tokens spell are its floats and outermost objects. -/
theorem forall₂_runs (h : List.Forall₂ Reads (tokens document) whole.terminals) :
    List.Forall₂ (fun run v => List.Forall₂ Reads run v.terminals) (mask document).runs
      (whole.slots.flatMap Slot.heldValues) := by
  have hpieces := forall₂_pieces (R := Reads) (fun _ _ hread => hread.kind_eq) h
  rw [pieces_terminals] at hpieces
  have hruns := forall₂_heldRuns hpieces
  rwa [← runs_mask, heldRuns_slots, List.forall₂_map_right_iff] at hruns

/-- The literals of a document that the grammar derives fit. -/
theorem exists_literalsFit (hw : whole.WellFormed)
    (h : List.Forall₂ Reads (tokens document) whole.terminals) :
    ∃ context, LiteralsFit document context := by
  obtain ⟨masked, hmasked⟩ := exists_masked (placeholderName document) hw
  have hpieces := forall₂_pieces (R := Reads) (fun _ _ hread => hread.kind_eq) h
  rw [pieces_terminals] at hpieces
  have hnames (i : Nat) : Reads (placeholderToken (placeholderStem document) i)
      (.name (placeholderName document i)) :=
    reads_name ((isStem_placeholderStem document).isName_placeholder i)
  refine ⟨masked, hmasked.wellFormed, ?_, fun i run hrun => ?_⟩
  · rw [maskedTokens_mask, hmasked.terminals]
    exact forall₂_nameHeld hnames 0 hpieces
  -- The values of the runs are those that take the place of the names again.
  let values := whole.slots.flatMap Slot.heldValues
  have hslots := hmasked.fill (valueNamed? document values)
    { held := fun k v hk => by rw [Nat.zero_add, valueNamed?_placeholderName, hk]
      other := fun s hs => by
        obtain ⟨t, ht, hreads⟩ := exists_mem_of_forall₂ h hs
        exact valueNamed?_of_mem_tokens values (hreads.eq_name ▸ ht) }
  have hruns := forall₂_runs h
  obtain ⟨hi, rfl⟩ := List.getElem?_eq_some_iff.mp hrun
  have hi' : i < values.length := hruns.length_eq ▸ hi
  have hreads : List.Forall₂ Reads (mask document).runs[i] values[i].terminals := hruns.get hi hi'
  obtain ⟨slot, hslot, hname⟩ := List.mem_flatMap.mp (name_mem_terminals hmasked hi')
  have hfilled : slot.fill (valueNamed? document values) ∈ whole.slots :=
    hslots ▸ List.mem_map_of_mem hslot
  cases (mem_terminals_iff _ _).mp hname with
  | inl hword =>
    cases slot with
    | terminal t => contradiction
    | value constant v =>
      refine ⟨constant, v, values[i], hslot, hword, hreads, fun hconstant => ?_⟩
      subst hconstant
      have hc := (isConstant_fill_iff v).mp (isConstant_of_mem_slots hw hfilled)
      refine hc.2 _ hword _ ?_
      rw [valueNamed?_placeholderName, List.getElem?_eq_getElem hi']
      rfl
  | inr hlabel =>
    exact absurd (mem_labels_slotFill hlabel) (placeholderName_not_mem_labels h hfilled i)

end Derived

/-! ## Acceptance -/

/-- **Accepted documents**: the literals of an accepted document fit exactly if the grammar
derives the whole document, its literals included. What they fit is the parsed document, read
token by token, exactly if nothing touches them as well. -/
theorem literalsFit_iff (layout : Layout) (document out : String)
    (h : canonicalize layout document = .ok out) :
    ∃ parsed, Grammar.parse (mask document.toList).text = .ok parsed ∧
      ((∃ context, LiteralsFit document.toList context) ↔ Derives (tokens document.toList)) ∧
      (LiteralsFit document.toList parsed ∧ ParserAgrees document.toList ↔
        Derives (tokens document.toList) ∧ Untouched (mask document.toList).segments) := by
  unfold canonicalize at h
  simp only at h
  cases hparse : Grammar.parse (mask document.toList).text with
  | error place =>
    rw [hparse] at h
    contradiction
  | ok parsed =>
    obtain ⟨hwf, hcomplete, -⟩ := exists_of_parse hparse
    have hreads := forall₂_reads_of_parse hparse
    refine ⟨parsed, rfl, ⟨?_, ?_⟩, ?_, ?_⟩
    · rintro ⟨context, hfit⟩
      exact hfit.derives
    · rintro ⟨whole, hwhole, hderived⟩
      exact exists_literalsFit hwhole hderived
    · rintro ⟨hfit, hagrees⟩
      exact ⟨hfit.derives, untouched_of_agrees hcomplete hagrees⟩
    · rintro ⟨⟨whole, hwhole, hderived⟩, hu⟩
      obtain ⟨context, hfit⟩ := exists_literalsFit hwhole hderived
      have hagrees := agrees_of_untouched hcomplete hu hfit.reads
      rw [show _ = maskedTokens _ 0 _ from hagrees] at hreads
      have hunique : Relator.RightUnique Reads := fun _ _ _ => Reads.unique
      have hsame : context.terminals = parsed.terminals :=
        List.right_unique_forall₂' hunique hfit.reads hreads
      obtain rfl := eq_of_terminals_eq hfit.wellFormed hwf hsame
      exact ⟨hfit, hagrees⟩

/-- A float in the place of a value. -/
theorem literalsFit_of_float :
    canonicalize .standard "\x7ba(b:1.5)\x7d" = .ok "\x7b\n  a(b: 1.5)\n\x7d\n" ∧
    ∃ parsed, Grammar.parse (mask "\x7ba(b:1.5)\x7d".toList).text = .ok parsed ∧
      ((∃ context, LiteralsFit "\x7ba(b:1.5)\x7d".toList context) ↔
        Derives (tokens "\x7ba(b:1.5)\x7d".toList)) ∧
      (LiteralsFit "\x7ba(b:1.5)\x7d".toList parsed ∧ ParserAgrees "\x7ba(b:1.5)\x7d".toList ↔
        Derives (tokens "\x7ba(b:1.5)\x7d".toList) ∧
          Untouched (mask "\x7ba(b:1.5)\x7d".toList).segments) := by
  have h : canonicalize .standard "\x7ba(b:1.5)\x7d" = .ok "\x7b\n  a(b: 1.5)\n\x7d\n" := by
    decide +kernel
  exact ⟨h, literalsFit_iff .standard _ _ h⟩

/-- An object without a key is accepted, and the grammar derives no such document. -/
theorem canonicalize_of_missing_key :
    canonicalize .standard "\x7ba(b:\x7b1\x7d)\x7d" =
      .ok "\x7b\n  a(b: \x7b1\x7d)\n\x7d\n" ∧
    ¬ Derives (tokens "\x7ba(b:\x7b1\x7d)\x7d".toList) := by
  have hcomplete : (terminals "\x7ba(b:\x7b1\x7d)\x7d".toList).complete = true := by
    decide +kernel
  have htokens : tokens "\x7ba(b:\x7b1\x7d)\x7d".toList =
      ((scan "\x7ba(b:\x7b1\x7d)\x7d".toList).items.map Prod.fst).map
        Grammar.Token.toSource := by
    decide +kernel
  refine ⟨by decide +kernel, ?_⟩
  rw [htokens, derives_iff_of_complete hcomplete]
  rintro ⟨document, hparse⟩
  have herror : (Grammar.parse "\x7ba(b:\x7b1\x7d)\x7d".toList).isOk = false := by
    decide +kernel
  rw [hparse] at herror
  contradiction

end QueryDoc
