import QueryDoc.Grammar.Printer
import QueryDoc.Proofs.Grammar.ObjectValue

/-!
# QueryDoc.Proofs.Grammar.Shown

What the printer shows of a document: all of it, except for the variables of a subscription that
has no name (`print_shown`).

The terminals of the variables are a row with brackets of its own, behind a name. Leaving out
such rows (`Trimmed`) changes nothing about where a brace opens an object, and makes no brackets
that need more room.
-/

namespace QueryDoc.Grammar

open Source (Along AlikeBehind Balanced Bracket lastOf nestingBehind)

/-! ## Shown documents -/

/-- A definition without the variables that are not printed. -/
def Definition.shown : Definition → Definition
  | operation .subscription none _ directives selections =>
    operation .subscription none [] directives selections
  | d => d

/-- A document without the variables that are not printed. -/
def Document.shown (document : Document) : Document := document.map Definition.shown

/-- All definitions are shown as they are, except for subscriptions without a name. -/
theorem Definition.shown_cases (d : Definition) :
    (d.shown = d ∧ d.ShowsVariables) ∨ ∃ vs ds ss, d = operation .subscription none vs ds ss := by
  cases d with
  | selectionSet ss => exact .inl ⟨rfl, trivial⟩
  | operation type s vs ds ss =>
    cases type with
    | subscription =>
      cases s with
      | none => exact .inr ⟨vs, ds, ss, rfl⟩
      | some s => exact .inl ⟨rfl, trivial⟩
    | _ => cases s <;> exact .inl ⟨rfl, trivial⟩
  | fragment s onType ds ss => exact .inl ⟨rfl, trivial⟩

/-- A document is printed as the one without the variables that are not printed. -/
theorem print_shown (indent : Nat) (document : Document) :
    print indent document.shown = print indent document := by
  rw [print, print, Document.shown, List.map_map]
  refine congrArg _ (List.map_congr_left fun d _ => ?_)
  obtain ⟨h, -⟩ | ⟨vs, ds, ss, rfl⟩ := d.shown_cases
  · rw [Function.comp_apply, h]
  · rfl

/-- Nothing is left that would not be printed. -/
theorem Document.shown_showsVariables (document : Document) :
    ∀ d ∈ document.shown, d.ShowsVariables := by
  intro d hd
  obtain ⟨e, -, rfl⟩ := List.mem_map.mp hd
  obtain ⟨h, hshows⟩ | ⟨vs, ds, ss, rfl⟩ := e.shown_cases
  · rwa [h]
  · rfl

/-- Without its variables, an operation is still derived by the grammar. -/
theorem Document.WellFormed.shown {document : Document} (h : document.WellFormed) :
    document.shown.WellFormed := by
  refine ⟨by simpa [Document.shown] using h.1, fun d hd => ?_⟩
  obtain ⟨e, he, rfl⟩ := List.mem_map.mp hd
  have hwf := h.2 e he
  obtain ⟨hsame, -⟩ | ⟨vs, ds, ss, rfl⟩ := e.shown_cases
  · rwa [hsame]
  · exact ⟨by simp, hwf.2⟩

/-- Slots are left out, and none is added. -/
theorem mem_slots_of_shown {document : Document} {slot : Slot}
    (h : slot ∈ Document.slots document.shown) : slot ∈ document.slots := by
  obtain ⟨d, hd, hslot⟩ := List.mem_flatMap.mp h
  obtain ⟨e, he, rfl⟩ := List.mem_map.mp hd
  refine List.mem_flatMap.mpr ⟨e, he, ?_⟩
  obtain ⟨hsame, -⟩ | ⟨vs, ds, ss, rfl⟩ := e.shown_cases
  · rwa [hsame] at hslot
  · simp only [Definition.shown, Definition.slots] at hslot ⊢
    simp_all [variablesSlots, bracketed]
    grind

/-! ## Rows without variables -/

/-- Rows of which the second comes from the first by leaving out rows behind a name that have
brackets of their own. -/
inductive Trimmed : List Terminal → List Terminal → Prop where
  | nil : Trimmed [] []
  | cons (u : Terminal) {us vs : List Terminal} (h : Trimmed us vs) : Trimmed (u :: us) (u :: vs)
  | trim (s : String) {ks us vs : List Terminal} (hb : IsBalanced ks)
    (hlast : AlikeBehind (lastOf (some .name) (ks.map Terminal.kind)) (some .name))
    (h : Trimmed us vs) : Trimmed (.name s :: (ks ++ us)) (.name s :: vs)

namespace Trimmed

variable {us vs us' vs' : List Terminal}

theorem refl (us : List Terminal) : Trimmed us us := by
  induction us with
  | nil => exact .nil
  | cons u us ih => exact .cons u ih

/-- Rows may be trimmed one by one. -/
theorem append (h : Trimmed us vs) (h' : Trimmed us' vs') : Trimmed (us ++ us') (vs ++ vs') := by
  induction h with
  | nil => exact h'
  | cons u _ ih => exact .cons u ih
  | trim s hb hlast _ ih =>
    rw [List.cons_append, List.append_assoc]
    exact .trim s hb hlast ih

/-- A trimmed row is a part of the row. -/
theorem sublist (h : Trimmed us vs) : vs.Sublist us := by
  induction h with
  | nil => exact .slnil
  | cons u _ ih => exact ih.cons_cons u
  | trim s _ _ _ ih => exact (ih.trans (List.sublist_append_right _ _)).cons_cons _

/-- What holds along a row holds along the trimmed one: what is left out is closed, so that each
terminal keeps the brackets around it. -/
theorem along {P : Bool → Terminal → Prop} {nesting : List Bracket}
    {p : Option Source.TokenKind} (h : Trimmed us vs) (ha : Along Terminal.kind P nesting p us) :
    Along Terminal.kind P nesting p vs := by
  induction h generalizing nesting p with
  | nil => trivial
  | cons u _ ih => exact ⟨ha.1, ih ha.2⟩
  | trim s hb hlast _ ih => exact ⟨ha.1, ih (ha.2.of_balanced hb hlast)⟩

end Trimmed

/-- The variables stand behind the keyword, and closing parentheses at their end. -/
theorem alikeBehind_variables (vs : List VariableDefinition) :
    AlikeBehind (lastOf (some .name) ((slotTerminals (variablesSlots vs)).map Terminal.kind))
      (some .name) := by
  cases vs with
  | nil => rfl
  | cons v vs =>
    have hne : (v :: vs).flatMap VariableDefinition.slots ≠ [] := by simp [VariableDefinition.slots]
    rw [variablesSlots, bracketed_of_ne_nil hne, slotTerminals_mark, slotTerminals_append,
      slotTerminals_mark, slotTerminals_nil, List.map_cons, List.map_append, lastOf,
      Source.lastOf_append]
    rfl

/-- The variables of an operation without a name are left out, and nothing else. -/
theorem trimmed_shown (document : Document) :
    Trimmed document.terminals (Document.terminals document.shown) := by
  induction document with
  | nil => exact .nil
  | cons d ds ih =>
    have hd : Trimmed (slotTerminals d.slots) (slotTerminals d.shown.slots) := by
      obtain ⟨h, -⟩ | ⟨vs, dirs, ss, rfl⟩ := d.shown_cases
      · rw [h]
        exact .refl _
      · simpa [Definition.shown, Definition.slots, variablesSlots, bracketed] using
          Trimmed.trim OperationType.subscription.keyword (isBalanced_variables vs)
            (alikeBehind_variables vs)
            (.refl (slotTerminals (directivesSlots dirs) ++ slotTerminals (blockSlots ss)))
    simpa [Document.terminals, Document.slots, Document.shown] using hd.append ih

/-! ## Room for brackets -/

theorem length_nestingBehind (b : Bracket) (nesting : List Bracket)
    (p : Option Source.TokenKind) (k : Source.TokenKind) :
    ((nestingBehind (b :: nesting) p k).length : Int) = nesting.length + 1 + bracketStep k := by
  cases k with
  | punctuator mark =>
    simp only [nestingBehind, Source.roleOf, bracketStep]
    grind
  | _ => simp [nestingBehind, Source.roleOf, bracketStep]

/-- In a row with brackets of its own as many brackets are closed as are opened. -/
theorem sum_bracketStep_of_balanced {ks : List Source.TokenKind} (h : Balanced ks) :
    (ks.map bracketStep).sum = 0 := by
  induction h with
  | nil => rfl
  | @cons k ks hk _ ih =>
    have hlen := length_nestingBehind .block [] none k
    rw [hk] at hlen
    rw [List.map_cons, List.sum_cons, ih]
    simp at hlen
    omega
  | @wrap o c ks ls ho hc _ _ ih ih' =>
    obtain ⟨b, hb⟩ := ho [.block] none
    have hopening := length_nestingBehind .block [] none o
    have hclosing := length_nestingBehind .block [] none c
    rw [hb] at hopening
    rw [hc] at hclosing
    rw [List.map_cons, List.map_append, List.map_cons, List.sum_cons, List.sum_append,
      List.sum_cons, ih, ih']
    simp at hopening hclosing
    omega

/-- The brackets that are open behind a row are counted step by step. -/
theorem openBrackets_eq (ts : List Source.Token) :
    openBrackets ts = ((ts.map Source.Token.kind).map bracketStep).sum := by
  rw [openBrackets, List.map_map]
  rfl

/-- Only the kinds of tokens matter for the room that they need. -/
theorem hasRoom_congr {ts us : List Source.Token} (room : Nat)
    (h : ts.map Source.Token.kind = us.map Source.Token.kind) :
    hasRoom room ts = hasRoom room us := by
  rw [Bool.eq_iff_iff, hasRoom_iff, hasRoom_iff]
  simp only [openBrackets_eq, List.map_take, h]

/-- What stands behind a row with brackets of its own finds room without it too. -/
theorem hasRoom_of_balanced {ks ts : List Source.Token} {room : Nat}
    (hb : Balanced (ks.map Source.Token.kind)) (h : hasRoom room (ks ++ ts) = true) :
    hasRoom room ts = true := by
  rw [hasRoom_iff] at h ⊢
  intro n
  have hn := h (ks.length + n)
  rw [List.take_length_add_append, openBrackets_eq, List.map_append, List.map_append,
    List.sum_append, sum_bracketStep_of_balanced hb, Int.zero_add, ← openBrackets_eq] at hn
  exact hn

/-- A document with room has room without its hidden variables. -/
theorem Trimmed.hasRoom {us vs : List Terminal} (h : Trimmed us vs) {room : Nat}
    (hroom : Grammar.hasRoom room (us.map Terminal.token) = true) :
    Grammar.hasRoom room (vs.map Terminal.token) = true := by
  induction h generalizing room with
  | nil => exact hroom
  | cons u _ ih =>
    rw [List.map_cons, hasRoom_token] at hroom ⊢
    split at hroom
    · contradiction
    · exact ih hroom
  | trim s hb _ _ ih =>
    rw [List.map_cons, hasRoom_token, List.map_append] at hroom
    rw [List.map_cons, hasRoom_token]
    refine ih (hasRoom_of_balanced ?_ hroom)
    rw [List.map_map]
    exact hb

/-- The brackets of a text that the strict cut goes through find room. -/
theorem hasRoom_of_complete {room : Nat} {p : Position} {cs : List Char}
    (h : (scanFrom room p cs).complete = true) :
    Grammar.hasRoom room (((scanFrom room p cs).items.map Prod.fst).map Token.toSource) = true := by
  fun_induction scanFrom room p cs with
  | case1 => rfl
  | case2 room p c cs hi ih => exact ih h
  | case3 room p cs hi ih => exact ih h
  | case4 => contradiction
  | case5 => contradiction
  | case6 room p c cs hi hc t rest hs left hroom ih =>
    have hrest := ih h
    simp only [Scan.cons, List.map_cons]
    cases hk : t.kind <;>
      simp_all [Grammar.hasRoom, Token.toSource, TokenKind.toSource, roomAfter]

end QueryDoc.Grammar
