import QueryDoc.Proofs.Source.Masking

/-!
# QueryDoc.Proofs.Source.Pieces

What masking does to a row of tokens, whatever they are made of. Only the kinds of the
tokens matter, so the same cut into pieces can be made of any row of things that have a
kind, such as the terminals of a grammar.

`filterMap_piece_segmentsFrom` says that `piecesFrom` cuts the tokens of a text where
`segmentsFrom` cuts its lexemes, and `forall₂_piecesFrom` that rows of the same kinds are
cut in the same way.
-/

namespace QueryDoc.Source

/-- A token that stays, or a run of tokens that is held back. -/
inductive Piece (α : Type u) where
  | kept (a : α)
  | held (run : List α)
deriving Repr

/-- The tokens of a piece. -/
def Piece.all : Piece α → List α
  | kept a => [a]
  | held run => run

section Cut

variable (kind : α → TokenKind)

/-- The pieces of a row behind a token of kind `previous` inside these brackets. -/
def piecesFrom (nesting : List Bracket) (previous : Option TokenKind) (pending : Option (List α)) :
    List α → List (Piece α)
  | [] => (pending.getD []).reverse.map .kept
  | a :: rest =>
    let (role, nesting) := roleOf nesting previous (kind a)
    match role, pending with
    | .opensObject, none => piecesFrom nesting (some (kind a)) (some [a]) rest
    | .closesOutermost, some run =>
      .held (a :: run).reverse :: piecesFrom nesting (some (kind a)) none rest
    | .float, none => .held [a] :: piecesFrom nesting (some (kind a)) none rest
    | _, some run => piecesFrom nesting (some (kind a)) (some (a :: run)) rest
    | _, none => .kept a :: piecesFrom nesting (some (kind a)) none rest

/-- The pieces of a whole row. -/
def pieces (as : List α) : List (Piece α) := piecesFrom kind [] none none as

/-- Nothing is lost in the pieces, and what is pending comes first. -/
theorem flatMap_all_piecesFrom (nesting : List Bracket) (previous : Option TokenKind)
    (pending : Option (List α)) (as : List α) :
    (piecesFrom kind nesting previous pending as).flatMap Piece.all =
      (pending.getD []).reverse ++ as := by
  induction as generalizing nesting previous pending with
  | nil =>
    simp only [piecesFrom, List.flatMap_map, List.append_nil]
    exact List.flatMap_singleton' _
  | cons a as ih =>
    unfold piecesFrom
    obtain ⟨role, nesting⟩ := roleOf nesting previous (kind a)
    cases role <;> cases pending <;> simp [Piece.all, ih]

/-- The pieces make up the row. -/
theorem flatMap_all_pieces (as : List α) : (pieces kind as).flatMap Piece.all = as :=
  flatMap_all_piecesFrom kind [] none none as

end Cut

/-! ## Pieces of a text -/

/-- What a segment is for the tokens of a text. -/
def Segment.piece? : Segment → Option (Piece Token)
  | kept l => l.token?.map .kept
  | held run => some (.held (run.filterMap Lexeme.token?))

theorem filterMap_piece_kept (ls : List Lexeme) :
    (ls.map Segment.kept).filterMap Segment.piece? = (ls.filterMap Lexeme.token?).map .kept := by
  rw [List.filterMap_map, List.map_filterMap]
  rfl

/-- The tokens of a text are cut where its lexemes are. -/
theorem filterMap_piece_segmentsFrom (nesting : List Bracket) (previous : Option TokenKind)
    (pending : Option (List Lexeme)) (ls : List Lexeme) :
    (segmentsFrom nesting previous pending ls).filterMap Segment.piece? =
      piecesFrom Token.kind nesting previous
        (pending.map (List.filterMap Lexeme.token?)) (ls.filterMap Lexeme.token?) := by
  induction ls generalizing nesting previous pending with
  | nil =>
    cases pending with
    | none => rfl
    | some run =>
      rw [segmentsFrom, Option.getD_some, filterMap_piece_kept, List.filterMap_reverse]
      rfl
  | cons l ls ih =>
    cases l with
    | ignored text =>
      cases pending <;>
        simp [segmentsFrom, Segment.piece?, Lexeme.token?, List.filterMap_cons, ih]
    | token t =>
      simp only [List.filterMap_cons, Lexeme.token?]
      unfold segmentsFrom piecesFrom
      obtain ⟨role, nesting⟩ := roleOf nesting previous t.kind
      cases role <;> cases pending <;> simp [Segment.piece?, Lexeme.token?, ih]

/-- The segments of a masked document have the pieces of its tokens. -/
theorem filterMap_piece_mask (document : List Char) :
    (mask document).segments.filterMap Segment.piece? = pieces Token.kind (tokens document) :=
  filterMap_piece_segmentsFrom [] none none (lexemes document)

/-- What is kept are tokens of the document. -/
theorem mem_tokens_of_kept {document : List Char} {t : Token}
    (h : .kept t ∈ pieces Token.kind (tokens document)) : t ∈ tokens document := by
  rw [← flatMap_all_pieces Token.kind (tokens document)]
  exact List.mem_flatMap.mpr ⟨_, h, List.mem_singleton_self t⟩

theorem mem_tokens_of_kept_segment {document : List Char} {t : Token}
    (h : .kept (.token t) ∈ (mask document).segments) : t ∈ tokens document := by
  refine mem_tokens_of_kept (filterMap_piece_mask document ▸ ?_)
  exact List.mem_filterMap.mpr ⟨_, h, rfl⟩

/-! ## Names in place of runs -/

/-- The row with a name in place of each run that is held back, the `i`-th name first. -/
def nameHeld (name : Nat → α) (i : Nat) : List (Piece α) → List α
  | [] => []
  | .kept a :: rest => a :: nameHeld name i rest
  | .held _ :: rest => name i :: nameHeld name (i + 1) rest

/-- The runs that are held back. -/
def heldRuns (ps : List (Piece α)) : List (List α) :=
  ps.filterMap fun
    | .kept _ => none
    | .held run => some run

@[simp] theorem heldRuns_kept (a : α) (ps : List (Piece α)) :
    heldRuns (.kept a :: ps) = heldRuns ps := rfl

theorem heldRuns_held (run : List α) (ps : List (Piece α)) :
    heldRuns (.held run :: ps) = run :: heldRuns ps := rfl

theorem mem_heldRuns {run : List α} {ps : List (Piece α)} : run ∈ heldRuns ps ↔ .held run ∈ ps := by
  induction ps with
  | nil => simp [heldRuns]
  | cons p ps ih =>
    cases p with
    | kept a => rw [heldRuns_kept, ih, List.mem_cons, or_iff_right nofun]
    | held r => rw [heldRuns_held, List.mem_cons, ih, List.mem_cons, Piece.held.injEq]

/-- Names are counted on behind the runs in front. -/
theorem nameHeld_append (name : Nat → α) (i : Nat) (ps qs : List (Piece α)) :
    nameHeld name i (ps ++ qs) =
      nameHeld name i ps ++ nameHeld name (i + (heldRuns ps).length) qs := by
  induction ps generalizing i with
  | nil => rfl
  | cons p ps ih =>
    cases p with
    | kept a => simp [nameHeld, ih, heldRuns]
    | held run => simp [nameHeld, ih, heldRuns, Nat.add_assoc, Nat.add_comm 1]

/-- What is named is kept, or the name of a run. -/
theorem mem_nameHeld {name : Nat → α} {i : Nat} {ps : List (Piece α)} {a : α}
    (h : a ∈ nameHeld name i ps) :
    .kept a ∈ ps ∨ ∃ k, k < (heldRuns ps).length ∧ a = name (i + k) := by
  induction ps generalizing i with
  | nil => contradiction
  | cons p ps ih =>
    cases p with
    | kept b =>
      cases List.mem_cons.mp h with
      | inl heq => exact Or.inl (heq ▸ List.mem_cons_self)
      | inr hmem => exact (ih hmem).imp (List.mem_cons_of_mem _) id
    | held run =>
      cases List.mem_cons.mp h with
      | inl heq => exact Or.inr ⟨0, by simp [heldRuns], heq⟩
      | inr hmem =>
        refine (ih hmem).imp (List.mem_cons_of_mem _) ?_
        rintro ⟨k, hk, rfl⟩
        exact ⟨k + 1, by simpa [heldRuns] using hk, by rw [Nat.add_assoc, Nat.add_comm 1]⟩

theorem name_mem_nameHeld (name : Nat → α) (i : Nat) {ps : List (Piece α)} {k : Nat}
    (h : k < (heldRuns ps).length) : name (i + k) ∈ nameHeld name i ps := by
  induction ps generalizing i k with
  | nil => contradiction
  | cons p ps ih =>
    cases p with
    | kept b => exact List.mem_cons_of_mem _ (ih i h)
    | held run =>
      cases k with
      | zero => exact List.mem_cons_self
      | succ k =>
        rw [← Nat.add_assoc, Nat.add_right_comm]
        exact List.mem_cons_of_mem _ (ih (i + 1) (by simpa [heldRuns] using h))

/-- A name for a run stands in no more than one place. -/
theorem count_nameHeld_le [BEq α] [LawfulBEq α] {name : Nat → α}
    (hname : ∀ j k, name j = name k → j = k) (i : Nat) {ps : List (Piece α)} {k : Nat}
    (hkept : .kept (name k) ∉ ps) :
    (nameHeld name i ps).count (name k) ≤ if k < i then 0 else 1 := by
  induction ps generalizing i with
  | nil => exact Nat.zero_le _
  | cons p ps ih =>
    have hrest := fun i => ih i fun h => hkept (List.mem_cons_of_mem _ h)
    cases p with
    | kept b =>
      have hne : b ≠ name k := by
        rintro rfl
        exact hkept List.mem_cons_self
      rw [nameHeld, List.count_cons_of_ne hne]
      exact hrest i
    | held run =>
      have hnext := hrest (i + 1)
      rw [nameHeld]
      by_cases hik : i = k
      · subst hik
        rw [List.count_cons_self, if_neg (Nat.lt_irrefl i)]
        rw [if_pos (Nat.lt_succ_self i)] at hnext
        omega
      · rw [List.count_cons_of_ne fun h => hik (hname i k h)]
        refine hnext.trans ?_
        split <;> split <;> omega

/-- A placeholder as a token. -/
def placeholderToken (stem : List Char) (i : Nat) : Token := ⟨.name, placeholder stem i⟩

theorem maskedTokens_eq_nameHeld (stem : List Char) (i : Nat) (segments : List Segment) :
    maskedTokens stem i segments =
      nameHeld (placeholderToken stem) i (segments.filterMap Segment.piece?) := by
  induction segments generalizing i with
  | nil => rfl
  | cons s segments ih =>
    cases s with
    | kept l =>
      cases l <;>
        simp [maskedTokens, Segment.piece?, Lexeme.token?, List.filterMap_cons, nameHeld, ih]
    | held run => simp [maskedTokens, Segment.piece?, nameHeld, placeholderToken, ih]

/-- The literals of a text are the laid out runs of its tokens. -/
theorem literals_eq_heldRuns (m : Masked) :
    m.literals = (heldRuns (m.segments.filterMap Segment.piece?)).map layOut := by
  unfold Masked.literals
  induction m.segments with
  | nil => rfl
  | cons s segments ih =>
    cases s with
    | kept l =>
      cases l <;> simp_all [Segment.piece?, Lexeme.token?, List.filterMap_cons, heldRuns]
    | held run => simp_all [Segment.piece?, heldRuns]

/-- The tokens of each run that is held back. -/
def Masked.runs (m : Masked) : List (List Token) := heldRuns (m.segments.filterMap Segment.piece?)

/-- In the masked text, placeholders stand where runs are held back. -/
theorem maskedTokens_mask (document : List Char) :
    maskedTokens (mask document).stem 0 (mask document).segments =
      nameHeld (placeholderToken (placeholderStem document)) 0
        (pieces Token.kind (tokens document)) := by
  rw [maskedTokens_eq_nameHeld, filterMap_piece_mask]
  rfl

/-- The runs of a masked document are those of its tokens. -/
theorem runs_mask (document : List Char) :
    (mask document).runs = heldRuns (pieces Token.kind (tokens document)) := by
  rw [Masked.runs, filterMap_piece_mask]

/-! ## Rows of the same kinds -/

/-- What only one element corresponds to is found at most as often as that one. -/
theorem count_le_of_forall₂ [DecidableEq α] [DecidableEq β] {R : α → β → Prop} {a : α} {b : β}
    (hR : ∀ x, R x b → x = a) {as : List α} {bs : List β} (h : List.Forall₂ R as bs) :
    bs.count b ≤ as.count a := by
  induction h with
  | nil => exact Nat.le_refl 0
  | @cons x y _ _ hxy _ ih =>
    by_cases hy : y = b
    · subst hy
      rw [hR x hxy, List.count_cons_self, List.count_cons_self]
      exact Nat.succ_le_succ ih
    · rw [List.count_cons_of_ne hy]
      exact ih.trans List.count_le_count_cons

theorem exists_mem_of_forall₂ {R : α → β → Prop} {as : List α} {bs : List β}
    (h : List.Forall₂ R as bs) {b : β} (hb : b ∈ bs) : ∃ a ∈ as, R a b := by
  induction h with
  | nil => contradiction
  | cons hab _ ih =>
    cases List.mem_cons.mp hb with
    | inl heq => exact ⟨_, List.mem_cons_self, heq ▸ hab⟩
    | inr hmem =>
      obtain ⟨a, ha, hr⟩ := ih hmem
      exact ⟨a, List.mem_cons_of_mem _ ha, hr⟩

theorem eq_map_of_forall₂ {R : α → β → Prop} {f : β → α} {as : List α} {bs : List β}
    (h : List.Forall₂ R as bs) (hR : ∀ b ∈ bs, ∀ a, R a b → a = f b) : as = bs.map f := by
  induction h with
  | nil => rfl
  | cons hab _ ih =>
    obtain ⟨hb, hbs⟩ := List.forall_mem_cons.mp hR
    rw [hb _ hab, ih hbs, List.map_cons]

/-- Pieces of two rows that correspond. -/
inductive Piece.Rel (R : α → β → Prop) : Piece α → Piece β → Prop where
  | kept (h : R a b) : Rel R (.kept a) (.kept b)
  | held (h : List.Forall₂ R as bs) : Rel R (.held as) (.held bs)

section Related

variable {R : α → β → Prop} {kindA : α → TokenKind} {kindB : β → TokenKind}

theorem forall₂_append (h : List.Forall₂ R as bs) (h' : List.Forall₂ R as' bs') :
    List.Forall₂ R (as ++ as') (bs ++ bs') := List.rel_append h h'

theorem forall₂_reverse (h : List.Forall₂ R as bs) :
    List.Forall₂ R as.reverse bs.reverse := List.rel_reverse h

/-- Rows that correspond and have the same kinds are cut in the same way. -/
theorem forall₂_piecesFrom (hkind : ∀ a b, R a b → kindA a = kindB b)
    (nesting : List Bracket) (previous : Option TokenKind) {as : List α} {bs : List β}
    (h : List.Forall₂ R as bs) {pa : Option (List α)} {pb : Option (List β)}
    (hp : Option.Rel (List.Forall₂ R) pa pb) :
    List.Forall₂ (Piece.Rel R) (piecesFrom kindA nesting previous pa as)
      (piecesFrom kindB nesting previous pb bs) := by
  induction h generalizing nesting previous pa pb with
  | nil =>
    cases hp with
    | none => exact .nil
    | some hrun =>
      simp only [piecesFrom, Option.getD_some, List.forall₂_map_left_iff,
        List.forall₂_map_right_iff]
      exact (forall₂_reverse hrun).imp fun _ _ => .kept
  | @cons a b as bs hab _ ih =>
    have hk := hkind a b hab
    unfold piecesFrom
    rw [hk]
    obtain ⟨role, nesting⟩ := roleOf nesting previous (kindB b)
    cases hp with
    | none =>
      cases role with
      | opensObject => exact ih _ _ (.some (.cons hab .nil))
      | closesOutermost => exact .cons (.kept hab) (ih _ _ .none)
      | float => exact .cons (.held (.cons hab .nil)) (ih _ _ .none)
      | other => exact .cons (.kept hab) (ih _ _ .none)
    | some hrun =>
      have hlonger := List.Forall₂.cons hab hrun
      cases role with
      | opensObject => exact ih _ _ (.some hlonger)
      | closesOutermost => exact .cons (.held (forall₂_reverse hlonger)) (ih _ _ .none)
      | float => exact ih _ _ (.some hlonger)
      | other => exact ih _ _ (.some hlonger)

/-- Rows of the same kinds are cut into pieces in the same places. -/
theorem forall₂_pieces (hkind : ∀ a b, R a b → kindA a = kindB b) {as : List α} {bs : List β}
    (h : List.Forall₂ R as bs) :
    List.Forall₂ (Piece.Rel R) (pieces kindA as) (pieces kindB bs) :=
  forall₂_piecesFrom hkind [] none h .none

/-- Related pieces stay related when names stand for what is held back. -/
theorem forall₂_nameHeld {nameA : Nat → α} {nameB : Nat → β} (hname : ∀ i, R (nameA i) (nameB i))
    (i : Nat) {ps : List (Piece α)} {qs : List (Piece β)}
    (h : List.Forall₂ (Piece.Rel R) ps qs) :
    List.Forall₂ R (nameHeld nameA i ps) (nameHeld nameB i qs) := by
  induction h generalizing i with
  | nil => exact .nil
  | cons hpq _ ih =>
    cases hpq with
    | kept hab => exact .cons hab (ih i)
    | held _ => exact .cons (hname i) (ih (i + 1))

theorem forall₂_all {ps : List (Piece α)} {qs : List (Piece β)}
    (h : List.Forall₂ (Piece.Rel R) ps qs) :
    List.Forall₂ R (ps.flatMap Piece.all) (qs.flatMap Piece.all) := by
  induction h with
  | nil => exact .nil
  | cons hpq _ ih =>
    cases hpq with
    | kept hab => exact .cons hab ih
    | held hrun => exact forall₂_append hrun ih

/-- Rows that are cut at the same places are the same if they hold the same. -/
theorem eq_of_forall₂_rel {ps qs : List (Piece α)} {us : List (Piece β)}
    (hp : List.Forall₂ (Piece.Rel R) ps us) (hq : List.Forall₂ (Piece.Rel R) qs us)
    (h : ps.flatMap Piece.all = qs.flatMap Piece.all) : ps = qs := by
  induction hp generalizing qs with
  | nil =>
    cases hq
    rfl
  | @cons p u ps us hpu _ ih =>
    cases hq with
    | @cons q _ qs _ hqu hq =>
      rw [List.flatMap_cons, List.flatMap_cons] at h
      cases hpu with
      | kept =>
        cases hqu with
        | kept =>
          obtain ⟨rfl, hrest⟩ := List.cons.inj h
          rw [ih hq hrest]
      | @held as _ hrun =>
        cases hqu with
        | @held as' _ hrun' =>
          have hlen := hrun.length_eq.trans hrun'.length_eq.symm
          obtain ⟨hsame, hrest⟩ : as = as' ∧ _ := List.append_inj h hlen
          rw [hsame, ih hq hrest]

/-- A row in which nothing is held back corresponds to one of the same kind. -/
theorem exists_of_forall₂_kept {ps : List (Piece α)} {bs : List β}
    (h : List.Forall₂ (Piece.Rel R) ps (bs.map .kept)) :
    ∃ as, ps = as.map .kept ∧ List.Forall₂ R as bs := by
  induction bs generalizing ps with
  | nil =>
    cases h
    exact ⟨[], rfl, .nil⟩
  | cons b bs ih =>
    cases h with
    | cons hpb hrest =>
      obtain ⟨as, rfl, has⟩ := ih hrest
      cases hpb with
      | kept hab => exact ⟨_ :: as, rfl, .cons hab has⟩

theorem forall₂_heldRuns {ps : List (Piece α)} {qs : List (Piece β)}
    (h : List.Forall₂ (Piece.Rel R) ps qs) :
    List.Forall₂ (List.Forall₂ R) (heldRuns ps) (heldRuns qs) := by
  induction h with
  | nil => exact .nil
  | cons hpq _ ih =>
    cases hpq with
    | kept _ => exact ih
    | held hrun => exact .cons hrun ih

end Related

end QueryDoc.Source
