import QueryDoc.Proofs.Grammar.Filling
import QueryDoc.Proofs.Source.Touching

/-!
# QueryDoc.Proofs.Grammar.Executable

What is held back from an executable document, whether or not the parser here accepts it.
The full grammar has directives on the definitions of variables, which `Document` has not,
and the content of a number or of a string does not matter for finding it: `Fits` asks for
the kinds of the tokens, and for the texts of names only.

`runs_of_executable` says that the floats outside of objects and the outermost objects are
what is held back, and that nothing of the kind is left.
-/

namespace QueryDoc.Grammar

open Source (Piece mask placeholder placeholderToken maskedTokens heldRuns
  exists_mem_of_forall₂ forall₂_pieces forall₂_heldRuns forall₂_nameHeld
  maskedTokens_eq_nameHeld filterMap_piece_mask runs_mask runs_mask_text not_float_of_mem_text)
open Slot (word)

/-! ## Executable documents -/

/-- The definition of a variable with its directives. -/
structure VariableDeclaration where
  definition : VariableDefinition
  directives : List Directive

/-- A definition of the full grammar: one that the parser knows, or an operation whose
variables may have directives. -/
inductive ExecutableDefinition where
  | plain (d : Definition)
  | operation (type : OperationType) (name : Option String)
      (declarations : List VariableDeclaration) (directives : List Directive)
      (selections : List Selection)

/-- An executable document is a list of definitions. -/
abbrev ExecutableDocument := List ExecutableDefinition

/-- A variable, then the directives on it. -/
def VariableDeclaration.slots (v : VariableDeclaration) : List Slot :=
  v.definition.slots ++ directivesSlots v.directives

def declarationsSlots (declarations : List VariableDeclaration) : List Slot :=
  bracketed '(' ')' (declarations.flatMap VariableDeclaration.slots)

/-- A definition with variables that have directives, or any other. -/
def ExecutableDefinition.slots : ExecutableDefinition → List Slot
  | plain d => d.slots
  | operation type s declarations directives selections =>
    word type.keyword :: (s.toList.map word ++ declarationsSlots declarations ++
      directivesSlots directives ++ blockSlots selections)

/-- A definition that the executable grammar derives. -/
def ExecutableDefinition.WellFormed : ExecutableDefinition → Prop
  | plain d => d.WellFormed
  | operation _ _ declarations _ selections =>
    (∀ v ∈ declarations, v.definition.WellFormed) ∧ IsBlock selections

namespace ExecutableDocument

def slots (document : ExecutableDocument) : List Slot :=
  document.flatMap ExecutableDefinition.slots

/-- The terminals that a document stands for. -/
def terminals (document : ExecutableDocument) : List Terminal := slotTerminals document.slots

/-- A document that the full grammar derives. -/
def WellFormed (document : ExecutableDocument) : Prop :=
  document ≠ [] ∧ ∀ d ∈ document, d.WellFormed

end ExecutableDocument

/-! ## Its pieces -/

/-- A definition is cut into the pieces of its slots, the directives on its variables included. -/
theorem cuts_executableDefinition (d : ExecutableDefinition) : Cuts [] d.slots := by
  cases d with
  | plain d => exact cuts_definition d
  | operation type s vs ds ss =>
    have hs : Cuts [] (s.toList.map word) := by
      cases s with
      | none => exact cuts_nil []
      | some s => exact cuts_word [] s
    have hvs : Cuts [] (declarationsSlots vs) := cuts_parentheses (cuts_flatMap fun v _ =>
      (cuts_variable (by simp) v.definition).append (cuts_directives (by simp) v.directives))
    have htail := ((hs.append hvs).append (cuts_directives (by simp) ds)).append (cuts_block ss)
    exact (cuts_word [] type.keyword).append htail

namespace ExecutableDocument

/-- The pieces of a document are those of its values, and all else stays. -/
theorem pieces_terminals (document : ExecutableDocument) :
    Source.pieces Terminal.kind document.terminals = slotPieces document.slots :=
  Cuts.pieces_eq (cuts_flatMap fun d _ => cuts_executableDefinition d)

/-! ## Names in place of what is held back -/

/-- With other values, a declaration is still one. -/
theorem refits_declaration (v : VariableDeclaration) :
    Refits VariableDeclaration.slots
      (fun v w => v.definition.WellFormed → w.definition.WellFormed) v := by
  intro slots h
  obtain ⟨front, back, rfl, hfront, hback⟩ := exists_append_of_forall₂ h
  obtain ⟨w, rfl, hw⟩ := refits_variable v.definition _ hfront
  obtain ⟨ds, rfl, -⟩ := refits_directives v.directives _ hback
  exact ⟨⟨w, ds⟩, rfl, hw⟩

/-- With other values in it, a definition is still one, and derived by the grammar if it was. -/
theorem refits_executableDefinition (d : ExecutableDefinition) :
    Refits ExecutableDefinition.slots (fun d e => d.WellFormed → e.WellFormed) d := by
  intro slots h
  cases d with
  | plain d =>
    obtain ⟨e, rfl, he, -⟩ := refits_definition d slots h
    exact ⟨.plain e, rfl, he⟩
  | operation type s vs ds ss =>
    obtain ⟨_, rfl, h1⟩ := exists_of_forall₂_terminal h
    obtain ⟨front, block, rfl, hfront, hblock⟩ := exists_append_of_forall₂ h1
    obtain ⟨front, dirs, rfl, hfront, hds⟩ := exists_append_of_forall₂ hfront
    obtain ⟨names, vars, rfl, hnames, hvs⟩ := exists_append_of_forall₂ hfront
    obtain rfl := eq_of_forall₂_terminals (by simp [word]) hnames
    obtain ⟨inner, rfl, hinner⟩ := exists_bracketed hvs
    obtain ⟨ws, rfl, hws⟩ := exists_refitted_flatMap (fun v _ => refits_declaration v) hinner
    obtain ⟨ds, rfl, -⟩ := refits_directives ds _ hds
    obtain ⟨rs, rfl, hrs⟩ := refits_block ss _ hblock
    exact ⟨.operation type s ws ds rs, rfl, fun hwf => ⟨forall_of_forall₂ hws hwf.1, hrs hwf.2⟩⟩

/-- There is a document with names in place of the floats and outermost objects of another. -/
theorem exists_masked (name : Nat → String) {document : ExecutableDocument}
    (hwf : document.WellFormed) :
    ∃ masked : ExecutableDocument, masked.WellFormed ∧
      masked.terminals = named name 0 (slotPieces document.slots) ∧
      masked.slots.flatMap Slot.heldValues = [] := by
  obtain ⟨slots, hterminals, hheld, hfits, -⟩ := exists_masked_slots name 0 document.slots
  obtain ⟨masked, rfl, hmasked⟩ :=
    exists_refitted_flatMap (fun d _ => refits_executableDefinition d) hfits
  refine ⟨masked, ⟨?_, forall_of_forall₂ hmasked hwf.2⟩, hterminals, hheld⟩
  exact List.ne_nil_of_length_pos (hmasked.length_eq ▸ List.length_pos_iff.mpr hwf.1)

/-! ## Floats -/

theorem isSound_executableDefinition {d : ExecutableDefinition} (hwf : d.WellFormed) :
    ∀ slot ∈ d.slots, slot.IsSound := by
  cases d with
  | plain d => exact isSound_definition hwf
  | operation type s vs ds ss =>
    have hvs : ∀ slot ∈ declarationsSlots vs, slot.IsSound :=
      isSound_bracketed (isSound_flatMap fun v hv => List.forall_mem_append.mpr
        ⟨isSound_variable (hwf.1 v hv), isSound_directives v.directives⟩)
    have htail := List.forall_mem_append.mpr ⟨List.forall_mem_append.mpr
      ⟨hvs, isSound_directives ds⟩, isSound_block ss⟩
    cases s <;>
      simpa [ExecutableDefinition.slots, Slot.IsSound, word, Terminal.kind] using htail

/-- A document of which nothing is held back has no float in it. -/
theorem not_float_of_mem_terminals {document : ExecutableDocument} (hwf : document.WellFormed)
    (h : document.slots.flatMap Slot.heldValues = []) :
    ∀ u ∈ document.terminals, u.kind ≠ .float :=
  not_float_of_mem_slotTerminals
    (isSound_flatMap fun d hd => isSound_executableDefinition (hwf.2 d hd)) h

end ExecutableDocument

/-! ## What is held back -/

/-- The text of a terminal that is a name. -/
def Terminal.nameText? : Terminal → Option (List Char)
  | name s => some s.toList
  | _ => none

/-- Whether a token is of the kind of a terminal, and has its name. -/
def Fits (t : Source.Token) (u : Terminal) : Prop :=
  t.kind = u.kind ∧ ∀ text ∈ u.nameText?, t.text = text

instance (t : Source.Token) (u : Terminal) : Decidable (Fits t u) :=
  inferInstanceAs (Decidable (_ ∧ _))

/-- **Exactly the floats and outermost objects.** For a document whose tokens the full grammar
derives, the runs that are held back are, in order, the floats that stand in no object and
the objects that stand in no other, from brace to brace; everything else stays, and above all
every brace of a selection set. What stays derives from the grammar with a name in place of
each run, and has no float and no object. Neither has the masked text, even where names in it
have grown together. -/
theorem runs_of_executable {document : List Char} {whole : ExecutableDocument}
    (hwf : whole.WellFormed) (h : List.Forall₂ Fits (Source.tokens document) whole.terminals) :
    List.Forall₂ (Piece.Rel Fits) ((mask document).segments.filterMap Source.Segment.piece?)
        (slotPieces whole.slots) ∧
      List.Forall₂ (fun run v => List.Forall₂ Fits run (Value.terminals v))
        (mask document).runs (whole.slots.flatMap Slot.heldValues) ∧
      (∀ run, .held run ∈ (mask document).segments → Source.IsLiteralRun run) ∧
      (∃ rest : ExecutableDocument, rest.WellFormed ∧
        List.Forall₂ Fits (maskedTokens (mask document).stem 0 (mask document).segments)
          rest.terminals ∧
        rest.slots.flatMap Slot.heldValues = []) ∧
      (∀ t ∈ Source.tokens (mask document).text, t.kind ≠ .float) ∧
      (mask (mask document).text).runs = [] := by
  have hkind : ∀ t u, Fits t u → Source.Token.kind t = Terminal.kind u := fun _ _ hfits => hfits.1
  have hpieces := forall₂_pieces hkind h
  rw [whole.pieces_terminals] at hpieces
  have hruns := forall₂_heldRuns hpieces
  rw [heldRuns_slots, List.forall₂_map_right_iff] at hruns
  obtain ⟨rest, hrest, hterminals, hheld⟩ :=
    ExecutableDocument.exists_masked
      (fun i => String.ofList (placeholder (mask document).stem i)) hwf
  have hfits : List.Forall₂ Fits (maskedTokens (mask document).stem 0 (mask document).segments)
      rest.terminals := by
    rw [maskedTokens_eq_nameHeld, filterMap_piece_mask, hterminals]
    refine forall₂_nameHeld (fun i => ?_) 0 hpieces
    simp [Fits, placeholderToken, Terminal.kind, Terminal.nameText?]
  -- The masked row derives from a document of which nothing is held back.
  have hnone : heldRuns (Source.pieces Source.Token.kind
      (maskedTokens (mask document).stem 0 (mask document).segments)) = [] := by
    have hheldRuns := forall₂_heldRuns (forall₂_pieces hkind hfits)
    rw [rest.pieces_terminals, heldRuns_slots, hheld] at hheldRuns
    simpa using hheldRuns
  refine ⟨?_, ?_, (Source.isMasking_segments document).runs, ⟨rest, hrest, hfits, hheld⟩, ?_,
    runs_mask_text hnone⟩
  · rwa [filterMap_piece_mask]
  · rwa [runs_mask]
  · refine not_float_of_mem_text fun t ht => ?_
    obtain ⟨u, hu, htu⟩ := exists_mem_of_forall₂ hfits.flip ht
    rw [htu.1]
    exact rest.not_float_of_mem_terminals hrest hheld u hu

/-- A document in which objects, floats and selection sets stand inside each other. -/
def sampleSource : String :=
  "query q($v: [T!]! = [\x7bx: 1.5\x7d, 2.5] @d(a: \x7bb: 1\x7d)) \x7b
    k: f(x: 1.5, o: \x7by: [1.0, \x7b\x7d]\x7d) @e \x7b g ...F ... on T \x7b h \x7d \x7d
  \x7d
  fragment F on T \x7b i \x7d"

def sampleExecutable : ExecutableDocument :=
  [.operation .query (some "q")
    [⟨⟨"v", .list (.named "T" true) true,
        some (.list [.object [("x", .float ⟨0⟩)], .float ⟨0⟩])⟩,
      [⟨"d", [("a", .object [("b", .int 0)])]⟩]⟩] []
    [.field (some "k") "f" [("x", .float ⟨0⟩),
        ("o", .object [("y", .list [.float ⟨0⟩, .object []])])] [⟨"e", []⟩]
      [.field none "g" [] [] [], .spread "F" [],
        .inlineFragment (some "T") [] [.field none "h" [] [] []]]],
    .plain (.fragment "F" "T" [] [.field none "i" [] [] []])]

theorem wellFormed_sampleExecutable : sampleExecutable.WellFormed := by
  simp [sampleExecutable, ExecutableDocument.WellFormed, ExecutableDefinition.WellFormed,
    Definition.WellFormed, VariableDefinition.WellFormed, Value.isConstant, itemsConstant,
    fieldsConstant, IsBlock, selectionsWellFormed, Selection.WellFormed]

theorem runs_sampleSource :
    List.Forall₂ Fits (Source.tokens sampleSource.toList) sampleExecutable.terminals ∧
      List.Forall₂ (Piece.Rel Fits)
        ((mask sampleSource.toList).segments.filterMap Source.Segment.piece?)
        (slotPieces sampleExecutable.slots) ∧
      (mask (mask sampleSource.toList).text).runs = [] := by
  have hfits : List.Forall₂ Fits (Source.tokens sampleSource.toList)
      sampleExecutable.terminals := by decide +kernel
  obtain ⟨hpieces, -, -, -, -, hnone⟩ := runs_of_executable wellFormed_sampleExecutable hfits
  exact ⟨hfits, hpieces, hnone⟩

end QueryDoc.Grammar
