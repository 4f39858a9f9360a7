import QueryDoc.Proofs.Document

/-!
# QueryDoc.Proofs.Restoration

What masking holds back of the text of an operation: the literals of the finite floats and the
outermost objects among its arguments, in the order in which they are written. Writing them
back restores the text (`Operation.unmask_mask_text`).
-/

namespace QueryDoc

open Grammar (Slot Terminal TypeRef Verbatim WrittenAs argumentsSlots directivesSlots isInner
  selectionSlots slotPieces)
open Source (layOut mask)

/-! ## Literals of values -/

mutual

/-- The literals of the finite floats and outermost objects in a value. -/
def Value.literals : Value → List String
  | .float x => if x.isFinite then [(Value.float x).text] else []
  | .object fields => [(Value.object fields).text]
  | .list items => itemLiterals items
  | _ => []

/-- The literals of items, in order. -/
def itemLiterals : List Value → List String
  | [] => []
  | v :: vs => v.literals ++ itemLiterals vs

end

mutual

/-- What is held back of a value is laid out as its literals. -/
theorem Value.map_layOut_heldValues (v : Value) :
    v.meaning.heldValues.map (fun w => layOut (w.terminals.map Terminal.token)) =
      v.literals.map String.toList := by
  cases v with
  | float x =>
    have hx := (Value.isItem_text (.float x)).layOut
    rw [Value.meaning] at hx ⊢
    rw [Value.literals]
    split
    · next hfinite =>
      rw [if_pos hfinite] at hx
      simp [Grammar.Value.heldValues, hx]
    · rfl
  | object fields =>
    have hfields := (Value.isItem_text (.object fields)).layOut
    rw [Value.meaning] at hfields
    simp [Value.meaning, Value.literals, Grammar.Value.heldValues, hfields]
  | list items => exact map_layOut_itemHeldValues items
  | _ => rfl

/-- Laid out, what is held back of items are their literals. -/
theorem map_layOut_itemHeldValues (vs : List Value) :
    (Grammar.itemHeldValues (itemMeanings vs)).map
        (fun w => layOut (w.terminals.map Terminal.token)) =
      (itemLiterals vs).map String.toList := by
  cases vs with
  | nil => rfl
  | cons v vs =>
    simp [itemMeanings, Grammar.itemHeldValues, itemLiterals, v.map_layOut_heldValues,
      map_layOut_itemHeldValues vs]

end

/-! ## Values in the order in which they are written -/

mutual

/-- The arguments of a node by name, and behind them those below its fields by key. -/
def Node.writtenValues : Node → List Value
  | ⟨_, arguments, _, ⟨entries⟩, _, _, _, _⟩ =>
    arguments.sorted.map Prod.snd ++ ((sortByKey (entryValues entries)).map Prod.snd).flatten

/-- The argument values of an entry, in the order in which they are rendered. -/
def Entry.writtenValues : Entry → List Value
  | .field _ => []
  | .node _ n => n.writtenValues

/-- The values of each entry beside its key. -/
def entryValues : List (String × Entry) → List (String × List Value)
  | [] => []
  | (key, e) :: rest => (key, e.writtenValues) :: entryValues rest

end

/-- The argument values of a selection set: its entries are rendered in the order of their keys. -/
def SelectionSet.writtenValues (s : SelectionSet) : List Value :=
  ((sortByKey (entryValues s.entries)).map Prod.snd).flatten

/-- The arguments in an operation, and behind them those in the fragments defined behind it. -/
def Operation.writtenValues (o : Operation) : List Value :=
  SelectionSet.writtenValues o.fields ++
    o.definedFragments.flatMap fun f => SelectionSet.writtenValues f.fields

theorem entryValues_eq_map (es : List (String × Entry)) :
    entryValues es = es.map fun e => (e.1, e.2.writtenValues) := by
  induction es with
  | nil => rfl
  | cons e es ih => rw [entryValues, ih, List.map_cons]

/-! ## What is held back of slots -/

/-- The floats and outermost objects in slots. -/
def heldIn (slots : List Slot) : List Grammar.Value := slots.flatMap Slot.heldValues

@[simp] theorem heldIn_nil : heldIn [] = [] := rfl

@[simp] theorem heldIn_append (ss rs : List Slot) : heldIn (ss ++ rs) = heldIn ss ++ heldIn rs :=
  List.flatMap_append

@[simp] theorem heldIn_terminal (t : Terminal) (ss : List Slot) :
    heldIn (.terminal t :: ss) = heldIn ss := rfl

@[simp] theorem heldIn_mark (c : Char) (ss : List Slot) : heldIn (.mark c :: ss) = heldIn ss := rfl

@[simp] theorem heldIn_word (s : String) (ss : List Slot) : heldIn (.word s :: ss) = heldIn ss :=
  rfl

@[simp] theorem heldIn_value (constant : Bool) (v : Grammar.Value) (ss : List Slot) :
    heldIn (.value constant v :: ss) = v.heldValues ++ heldIn ss := rfl

/-- Brackets hold nothing back themselves. -/
@[simp] theorem heldIn_bracketed (o c : Char) (ss : List Slot) :
    heldIn (Grammar.bracketed o c ss) = heldIn ss := by
  cases ss with
  | nil => rfl
  | cons s ss =>
    rw [Grammar.bracketed_of_ne_nil (List.cons_ne_nil s ss), heldIn_mark, heldIn_append,
      heldIn_mark, heldIn_nil, List.append_nil]

theorem heldIn_flatMap (f : α → List Slot) (as : List α) :
    heldIn (as.flatMap f) = as.flatMap fun a => heldIn (f a) := List.flatMap_assoc

/-- A type has no values in it. -/
theorem heldIn_typeRef (type : TypeRef) : heldIn type.slots = [] := by
  refine List.flatMap_eq_nil_iff.mpr fun slot hslot => ?_
  obtain ⟨t, rfl⟩ := Grammar.slots_typeRef_terminals type slot hslot
  rfl

/-- Variables of an operation have no defaults, so that nothing is held back in them. -/
theorem heldIn_variables (o : Operation) (read : String → TypeRef) :
    heldIn (Grammar.variablesSlots (o.variables read)) = [] := by
  have hvariable (v : String × String) :
      heldIn (Grammar.VariableDefinition.slots ⟨v.1, read v.2, none⟩) = [] := by
    simp [Grammar.VariableDefinition.slots, Grammar.initialSlots, heldIn_typeRef]
  simp [Grammar.variablesSlots, Operation.variables, heldIn_flatMap, List.flatMap_map, hvariable]

/-- Arguments are rendered in the order of their names. -/
theorem heldIn_argumentMeanings (arguments : OrderedMap Value) :
    heldIn (argumentsSlots (argumentMeanings arguments)) =
      (arguments.sorted.map Prod.snd).flatMap fun v => v.meaning.heldValues := by
  simp [argumentsSlots, argumentMeanings, heldIn_flatMap, Grammar.argumentSlots, List.flatMap_map]

/-- Conditions are on variables, which are not held back. -/
theorem heldIn_directives (c : Conditions) (key : String) :
    heldIn (directivesSlots (c.directives key)) = [] := by
  have hcondition (name : String) (v : VariableRef) :
      heldIn (directivesSlots [conditionMeaning name v]) = [] := by
    simp [directivesSlots, conditionMeaning, Grammar.Directive.slots, argumentsSlots,
      Grammar.argumentSlots, Grammar.Value.heldValues]
  rw [Conditions.directives]
  cases c.skipIf.get? key with
  | some v => exact hcondition "skip" v
  | none =>
    cases c.includeIf.get? key with
    | some v => exact hcondition "include" v
    | none => rfl

/-- What is held back in selections comes from their entries, one after the other. -/
theorem heldIn_selections {keys : KeyStyle} {conditions : Conditions} {s : SelectionSet}
    (h : ∀ e ∈ s.entries, heldIn (e.2.meaning keys conditions e.1).slots =
      e.2.writtenValues.flatMap fun v => v.meaning.heldValues) :
    heldIn (selectionSlots (s.meaning keys conditions)) =
      (SelectionSet.writtenValues s).flatMap fun v => v.meaning.heldValues := by
  rw [selectionSlots_eq_flatMap, SelectionSet.meaning, entryMeanings_eq_map,
    map_snd_sortByKey fun e : String × Entry => e.2.meaning keys conditions e.1,
    SelectionSet.writtenValues, entryValues_eq_map,
    map_snd_sortByKey fun e : String × Entry => e.2.writtenValues, ← List.flatMap_def,
    List.flatMap_map, heldIn_flatMap, List.flatMap_assoc]
  exact List.flatMap_congr fun e he => h e (mem_sortByKey.mp he)

mutual

/-- A node holds back the values of its arguments, then those of its own selections, if none of its
directives has a value. -/
theorem Node.heldIn_meaning (n : Node) (key : Option String) {directives : List Grammar.Directive}
    (hd : heldIn (directivesSlots directives) = []) :
    heldIn (n.meaning key directives).slots =
      n.writtenValues.flatMap fun v => v.meaning.heldValues := by
  obtain ⟨typeName, arguments, conditions, ⟨entries⟩, _, _, _, _⟩ := n
  have hfields := heldIn_selections (s := ⟨entries⟩) (heldIn_entries .always conditions entries)
  rw [SelectionSet.meaning, SelectionSet.writtenValues] at hfields
  have hkey : heldIn (Grammar.keySlots key) = [] := by cases key <;> rfl
  simp [Node.meaning, Node.writtenValues, Grammar.Selection.slots, hkey, hd, hfields,
    heldIn_argumentMeanings]

/-- Entry by entry, the values that are held back are those that are written. -/
theorem heldIn_entries (keys : KeyStyle) (conditions : Conditions) (es : List (String × Entry)) :
    ∀ e ∈ es, heldIn (e.2.meaning keys conditions e.1).slots =
      e.2.writtenValues.flatMap fun v => v.meaning.heldValues := by
  cases es with
  | nil => exact List.forall_mem_nil _
  | cons e es =>
    obtain ⟨key, e⟩ := e
    refine List.forall_mem_cons.mpr ⟨?_, heldIn_entries keys conditions es⟩
    cases e with
    | field name =>
      have hkey : heldIn (Grammar.keySlots (if key = name then none else some key)) = [] := by
        split <;> rfl
      have hnone : directivesSlots [] = [] := rfl
      simp only [Entry.meaning, fieldMeaning, Entry.writtenValues]
      split <;> simp [Grammar.Selection.slots, argumentsSlots, selectionSlots, hkey, hnone,
        heldIn_directives]
    | node explicitKey n => exact n.heldIn_meaning _ (heldIn_directives conditions key)

end

/-- The values that are held back in a document are those of the operation and of the fragments
behind it, in the order in which they are rendered. -/
theorem Operation.heldIn_slots (o : Operation) (read : String → TypeRef) :
    heldIn (o.slots read) = o.writtenValues.flatMap fun v => v.meaning.heldValues := by
  have hbraced (keys : KeyStyle) (s : SelectionSet) :
      heldIn (bracedSlots (s.meaning keys .empty)) =
        (SelectionSet.writtenValues s).flatMap fun v => v.meaning.heldValues := by
    simp [bracedSlots, heldIn_selections (heldIn_entries keys .empty s.entries)]
  have hname : heldIn (if o.name = "" then [] else [.word o.name]) = [] := by
    split <;> rfl
  simp [Operation.slots, Operation.writtenValues, Fragment.slots, heldIn_flatMap,
    heldIn_variables, hname, hbraced, List.flatMap_assoc]

/-! ## Operations -/

/-- **Restoration**: masking the text of an operation holds back exactly the literals of the
finite floats and the outermost objects among the arguments, in the order in which they are
written, and writing them back into the masked text restores the text. -/
theorem Operation.unmask_mask_text (o : Operation) (h : o.Spellable isInner) :
    (mask o.text.toList).literals =
        (o.writtenValues.flatMap Value.literals).map String.toList ∧
      (mask o.text.toList).unmask (mask o.text.toList).text = o.text.toList := by
  obtain ⟨read, hread⟩ := exists_read
  obtain ⟨hwritten, hrel⟩ :=
    (Operation.laid_text (fun _ hc => hc) h hread).written (o.pieces_slots read)
  refine ⟨?_, hwritten.unmask_mask (by rw [Source.flatMap_all_pieces])⟩
  have hruns := Source.forall₂_heldRuns hrel
  rw [Grammar.heldRuns_slots, ← heldIn, o.heldIn_slots read, List.forall₂_map_right_iff] at hruns
  have hlaid := Source.eq_map_of_forall₂ (f := fun w => w.terminals.map Terminal.token) hruns
    fun w _ run hrun => Source.eq_map_of_forall₂ hrun fun u _ t ht => ht.eq_token
  rw [Source.literals_eq_heldRuns, Source.filterMap_piece_mask, hlaid, List.map_map,
    List.map_flatMap, List.map_flatMap]
  exact List.flatMap_congr fun v _ => v.map_layOut_heldValues

def pricedNode : Node where
  typeName := "offers"
  arguments := ⟨[("near", .list [.string "under 9.5 \x7bnet\x7d", .float ⟨0x3FF8000000000000⟩,
    .float ⟨0x7FF0000000000000⟩, .object ⟨[("at", .list [.object ⟨[]⟩])]⟩])]⟩
  conditions := .empty
  fields := ⟨[("...on", .field "...on")]⟩
  fragments := []
  isOperation := false
  kind := .query
  operationName := none

/-- A query with literals in a list, and with text in a string that looks like some. -/
def pricedOperation : Operation where
  fields := ⟨[("low", .node true pricedNode)]⟩
  fragments := []
  kind := .query
  name := ""
  variableTypes := .empty

theorem spellable_pricedOperation : pricedOperation.Spellable isInner where
  name := .inl rfl
  declarations := List.forall_mem_nil _
  fields := by
    have hstring : ∀ c ∈ "under 9.5 \x7bnet\x7d".toList, isInner c = true :=
      List.all_eq_true.mp (by decide)
    have harguments : ArgumentsSpellable isInner pricedNode.arguments :=
      List.forall_mem_singleton.mpr
        ⟨rfl, hstring, trivial, trivial, ⟨rfl, ⟨trivial, trivial⟩, trivial⟩, trivial⟩
    exact ⟨⟨fun _ => rfl, rfl, harguments, wellFormed_emptyConditions,
      .inr ⟨"on", rfl, rfl⟩, trivial⟩, trivial⟩
  fragments := by
    have hnone : pricedOperation.definedFragments = [] := by
      simp [Operation.definedFragments, pricedOperation, pricedNode, collectByKey, sortByKey,
        entryCollectors, Entry.collect, Node.collect, collectAttached]
    rw [hnone]
    exact List.forall_mem_nil _

theorem unmask_mask_pricedOperation : pricedOperation.Spellable isInner ∧
    (mask pricedOperation.text.toList).literals =
      ["1.5", "\x7bat: [\x7b\x7d]\x7d"].map String.toList ∧
    (mask pricedOperation.text.toList).unmask (mask pricedOperation.text.toList).text =
      pricedOperation.text.toList := by
  obtain ⟨hliterals, htext⟩ := pricedOperation.unmask_mask_text spellable_pricedOperation
  have hvalues : pricedOperation.writtenValues.flatMap Value.literals =
      ["1.5", "\x7bat: [\x7b\x7d]\x7d"] := by
    decide +kernel
  rw [hvalues] at hliterals
  exact ⟨spellable_pricedOperation, hliterals, htext⟩

end QueryDoc
