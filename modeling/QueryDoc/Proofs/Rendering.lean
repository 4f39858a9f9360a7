import QueryDoc.Proofs.Canonicalization
import QueryDoc.Proofs.Document

/-!
# QueryDoc.Proofs.Rendering

Rendering an operation puts its text into canonical form. If the words of the operation are
words, that only moves blanks: the tokens of the canonical form are those of the text
(`Operation.render_ok_iff`). The one thing that can stand in the way is a document with more
brackets inside one another than the parser takes.
-/

namespace QueryDoc

open Grammar (Laid maxNesting openBrackets)

/-- **Rendering**: an operation is rendered exactly if at no place of its masked text more
brackets are open than the parser takes, and then to a text with the same tokens. -/
theorem Operation.render_ok_iff (o : Operation) (h : o.WellFormed)
    (htyped : o.HasTypedFragments) (layout : Layout) :
    ((∃ out, o.render layout = .ok out) ↔
      ∀ n, openBrackets ((Source.tokens (Source.mask o.text.toList).text).take n) ≤ maxNesting) ∧
    ∀ out, o.render layout = .ok out → Source.tokens out.toList = Source.tokens o.text.toList := by
  obtain ⟨read, hread⟩ := exists_read
  have htext := Operation.laid_text (fun _ => Grammar.isInner_of_isBare) (h.spellable htyped) hread
  rw [← h.slots_meaning read] at htext
  rw [← Grammar.hasRoom_iff]
  exact canonicalize_laid layout htext (h.wellFormed_meaning read)
    (o.showsVariables_meaning read)

def sampleFragment : Fragment where
  name := "Rest"
  onType := "Item"
  fields := ⟨[("label", .field "title")]⟩

def sampleNode : Node where
  typeName := "item"
  arguments := ⟨[("near", .object ⟨[("x", .float ⟨0x3FF8000000000000⟩),
    ("id", .reference ⟨"id"⟩)]⟩)]⟩
  conditions := .empty
  fields := ⟨[("...Rest", .field "...Rest")]⟩
  fragments := [sampleFragment]
  isOperation := false
  kind := .query
  operationName := none

/-- A query with a variable, a float in an object, and a fragment that a node brings along. -/
def sampleOperation : Operation where
  fields := ⟨[("first", .node true sampleNode)]⟩
  fragments := []
  kind := .query
  name := "Sample"
  variableTypes := ⟨[("id", "ID!")]⟩

theorem definedFragments_sampleOperation :
    sampleOperation.definedFragments = [sampleFragment] := by
  simp [Operation.definedFragments, sampleOperation, sampleNode, sampleFragment, collectByKey,
    sortByKey, entryCollectors, Entry.collect, Node.collect, collectAttached, addDistinct,
    Fragment.collect]

theorem wellFormed_sampleOperation : sampleOperation.WellFormed where
  name := .inr rfl
  declarations := List.forall_mem_singleton.mpr
    ⟨rfl, .named "ID" true,
      ((Laid.word (s := "ID") rfl).trail
        (.mark (c := '!') rfl (by decide) (by decide) .nil)).spelled⟩
  fields := by
    have harguments : ArgumentsSpellable Grammar.isBare sampleNode.arguments :=
      List.forall_mem_singleton.mpr ⟨rfl, rfl, trivial, rfl, rfl, trivial⟩
    have hspread : FieldSpellable "...Rest" "...Rest" := .inr ⟨"Rest", rfl, rfl⟩
    have hon : "...Rest" ≠ "...on" := by decide
    exact ⟨List.cons_ne_nil _ _, ⟨⟨fun _ => rfl, rfl, harguments, wellFormed_emptyConditions,
      hspread, trivial⟩, trivial⟩, ⟨hon, trivial⟩, trivial⟩
  fragments := by
    have hon : "title" ≠ "...on" := by decide
    rw [definedFragments_sampleOperation]
    exact List.forall_mem_singleton.mpr
      ⟨rfl, List.cons_ne_nil _ _, ⟨.inl ⟨rfl, rfl⟩, trivial⟩, hon, trivial⟩

theorem hasTypedFragments_sampleOperation : sampleOperation.HasTypedFragments := by
  rw [Operation.HasTypedFragments, definedFragments_sampleOperation]
  exact List.forall_mem_singleton.mpr rfl

theorem render_sampleOperation : sampleOperation.WellFormed ∧ sampleOperation.HasTypedFragments ∧
    ∃ out, sampleOperation.render .standard = .ok out ∧
      Source.tokens out.toList = Source.tokens sampleOperation.text.toList := by
  have h := wellFormed_sampleOperation
  have htyped := hasTypedFragments_sampleOperation
  obtain ⟨hok, htokens⟩ := sampleOperation.render_ok_iff h htyped .standard
  rw [← Grammar.hasRoom_iff] at hok
  obtain ⟨out, hout⟩ := hok.mpr (by decide +kernel)
  exact ⟨h, htyped, out, hout, htokens out hout⟩

/-- Lists inside one another, this many inside the outermost one. -/
def nestedList : Nat → Value
  | 0 => .list []
  | n + 1 => .list [nestedList n]

/-- Brackets need no spelling. -/
theorem spellable_nestedList (n : Nat) : (nestedList n).Spellable Grammar.isBare := by
  induction n with
  | zero => trivial
  | succ n ih => exact ⟨ih, trivial⟩

/-- A query for a field with a list inside this many other ones. -/
def nestedOperation (n : Nat) : Operation where
  fields := ⟨[("f", .node false
    { typeName := "f"
      arguments := ⟨[("a", nestedList n)]⟩
      conditions := .empty
      fields := .empty
      fragments := []
      isOperation := false
      kind := .query
      operationName := none })]⟩
  fragments := []
  kind := .query
  name := ""
  variableTypes := .empty

theorem wellFormed_nestedOperation (n : Nat) : (nestedOperation n).WellFormed where
  name := .inl rfl
  declarations := List.forall_mem_nil _
  fields := by
    have hname : isName "a".toList = true := rfl
    have harguments : ArgumentsSpellable Grammar.isBare ⟨[("a", nestedList n)]⟩ :=
      List.forall_mem_singleton.mpr ⟨hname, spellable_nestedList n⟩
    exact ⟨List.cons_ne_nil _ _, ⟨⟨nofun, rfl, harguments, wellFormed_emptyConditions, trivial⟩,
      trivial⟩, trivial, trivial⟩
  fragments := by
    have hnone : (nestedOperation n).definedFragments = [] := by
      simp [Operation.definedFragments, nestedOperation, collectByKey, sortByKey, entryCollectors,
        Entry.collect, Node.collect, collectAttached, OrderedMap.empty]
    rw [hnone]
    exact List.forall_mem_nil _

/-- A query with a fragment on no type at all. -/
def untypedOperation : Operation where
  fields := ⟨[("f", .field "f")]⟩
  fragments := [⟨"F", "", ⟨[("g", .field "g")]⟩⟩]
  kind := .query
  name := ""
  variableTypes := .empty

theorem wellFormed_untypedOperation : untypedOperation.WellFormed where
  name := .inl rfl
  declarations := List.forall_mem_nil _
  fields := by
    have hon : "f" ≠ "...on" := by decide
    exact ⟨List.cons_ne_nil _ _, ⟨.inl ⟨rfl, rfl⟩, trivial⟩, hon, trivial⟩
  fragments := by
    have hon : "g" ≠ "...on" := by decide
    have hone : untypedOperation.definedFragments = untypedOperation.fragments := by
      simp [Operation.definedFragments, untypedOperation, collectByKey, sortByKey, entryCollectors,
        Entry.collect, Fragment.collect, addDistinct]
    rw [hone]
    exact List.forall_mem_singleton.mpr
      ⟨rfl, List.cons_ne_nil _ _, ⟨.inl ⟨rfl, rfl⟩, trivial⟩, hon, trivial⟩

/-- What the grammar rejects is not rendered, whatever the layout is. -/
theorem render_ne_ok_of_parse {o : Operation}
    (h : (Grammar.parse (Source.mask o.text.toList).text).isOk = false) (layout : Layout)
    (out : String) : o.render layout ≠ .ok out := by
  unfold Operation.render canonicalize
  cases hparse : Grammar.parse (Source.mask o.text.toList).text with
  | ok parsed =>
    rw [hparse] at h
    contradiction
  | error place =>
    simp only [hparse]
    exact nofun

/-- Two operations that have no canonical form, although all their words are names: in the
first one more brackets are open than the parser takes, in the second one a fragment is on
no type. -/
theorem render_nestedOperation_ne_ok :
    ((nestedOperation 48).WellFormed ∧ ∀ layout out, (nestedOperation 48).render layout ≠ .ok out) ∧
      untypedOperation.WellFormed ∧ ∀ layout out, untypedOperation.render layout ≠ .ok out := by
  refine ⟨⟨wellFormed_nestedOperation 48, render_ne_ok_of_parse ?_⟩,
    wellFormed_untypedOperation, render_ne_ok_of_parse ?_⟩
  · decide +kernel
  · decide +kernel

end QueryDoc
