import QueryDoc.Proofs.Source.Touching

/-!
# QueryDoc.Proofs.Source.Placing

Where the pieces of a row may stand. Masking decides about a brace by the open brackets and by
the token in front of it, so a row of pieces is found again if each object in it stands where a
brace opens one, and each brace that stays where it opens none (`piecesFrom_of_along`). The pieces
of a text stand so, up to an object that is never closed (`along_piecesFrom`).

A name may stand for an object meanwhile: behind both of them a brace means the same
(`AlikeBehind`), and the brackets of an object are closed in it (`Balanced`).
-/

namespace QueryDoc.Source

/-! ## Behind a token -/

/-- Whether a brace means the same behind two tokens, in the same brackets. -/
def AlikeBehind (p q : Option TokenKind) : Prop := opensObject [] p = opensObject [] q

theorem opensObject_eq (nesting : List Bracket) (p : Option TokenKind) :
    opensObject nesting p = (opensObject [] p || nesting.head? == some .list) := by
  simp [opensObject]

section Alike

variable {p q : Option TokenKind} (h : AlikeBehind p q) (nesting : List Bracket)
include h

theorem AlikeBehind.opensObject_eq : opensObject nesting p = opensObject nesting q := by
  rw [Source.opensObject_eq, Source.opensObject_eq nesting q, h]

/-- What stands in front matters only for whether a brace opens an object. -/
theorem AlikeBehind.roleOf_eq (k : TokenKind) : roleOf nesting p k = roleOf nesting q k := by
  cases k <;> simp only [roleOf, h.opensObject_eq nesting]

/-- Behind tokens that are alike, the same pieces are cut. -/
theorem AlikeBehind.piecesFrom_eq (kind : α → TokenKind) (pending : Option (List α))
    (as : List α) :
    piecesFrom kind nesting p pending as = piecesFrom kind nesting q pending as := by
  cases as with
  | nil => rfl
  | cons a as => rw [piecesFrom, piecesFrom, h.roleOf_eq nesting]

end Alike

/-- The brackets that are open behind a token. -/
def nestingBehind (nesting : List Bracket) (p : Option TokenKind) (k : TokenKind) : List Bracket :=
  (roleOf nesting p k).2

/-- The brackets that are open behind a row. -/
def nestingAfter (nesting : List Bracket) (p : Option TokenKind) : List TokenKind → List Bracket
  | [] => nesting
  | k :: ks => nestingAfter (nestingBehind nesting p k) (some k) ks

/-- The last token of a row, or the one in front of it. -/
def lastOf (p : Option TokenKind) : List TokenKind → Option TokenKind
  | [] => p
  | k :: ks => lastOf (some k) ks

/-- The brackets around a row are found token by token. -/
theorem nestingAfter_append (nesting : List Bracket) (p : Option TokenKind)
    (ks ls : List TokenKind) :
    nestingAfter nesting p (ks ++ ls) =
      nestingAfter (nestingAfter nesting p ks) (lastOf p ks) ls := by
  induction ks generalizing nesting p with
  | nil => rfl
  | cons k ks ih => exact ih _ _

theorem lastOf_append (p : Option TokenKind) (ks ls : List TokenKind) :
    lastOf p (ks ++ ls) = lastOf (lastOf p ks) ls := by
  induction ks generalizing p with
  | nil => rfl
  | cons k ks ih => exact ih _

/-! ## Balanced rows -/

/-- A row in which every bracket is closed. -/
inductive Balanced : List TokenKind → Prop where
  | nil : Balanced []
  | cons {k : TokenKind} {ks : List TokenKind}
    (hk : ∀ nesting p, nestingBehind nesting p k = nesting) (h : Balanced ks) : Balanced (k :: ks)
  | wrap {o c : TokenKind} {ks ls : List TokenKind}
    (ho : ∀ nesting p, ∃ b, nestingBehind nesting p o = b :: nesting)
    (hc : ∀ nesting p, nestingBehind nesting p c = nesting.tail)
    (h : Balanced ks) (h' : Balanced ls) : Balanced (o :: (ks ++ c :: ls))

theorem Balanced.append {ks ls : List TokenKind} (h : Balanced ks) (h' : Balanced ls) :
    Balanced (ks ++ ls) := by
  induction h with
  | nil => exact h'
  | cons hk _ ih => exact .cons hk ih
  | wrap ho hc h _ _ ih =>
    rw [List.cons_append, List.append_assoc, List.cons_append]
    exact .wrap ho hc h ih

/-- Behind a balanced row the brackets are as before it. -/
theorem Balanced.nestingAfter_eq {ks : List TokenKind} (h : Balanced ks) (nesting : List Bracket)
    (p : Option TokenKind) : nestingAfter nesting p ks = nesting := by
  induction h generalizing nesting p with
  | nil => rfl
  | cons hk _ ih => rw [nestingAfter, hk, ih]
  | wrap ho hc _ _ ih ih' =>
    obtain ⟨b, hb⟩ := ho nesting p
    rw [nestingAfter, hb, nestingAfter_append, ih, nestingAfter, hc, List.tail_cons, ih']

/-! ## Conditions along a row -/

/-- Whether each member of a row meets a condition, which may depend on whether a brace would
open an object in its place. -/
def Along (kind : α → TokenKind) (P : Bool → α → Prop) (nesting : List Bracket)
    (p : Option TokenKind) : List α → Prop
  | [] => True
  | a :: as => P (opensObject nesting p) a ∧
      Along kind P (nestingBehind nesting p (kind a)) (some (kind a)) as

section Along

variable {kind : α → TokenKind} {P Q : Bool → α → Prop} {nesting : List Bracket}
  {p q : Option TokenKind} {as bs : List α}

/-- What holds along a row holds along its parts, each with the brackets around it. -/
theorem along_append : Along kind P nesting p (as ++ bs) ↔ Along kind P nesting p as ∧
    Along kind P (nestingAfter nesting p (as.map kind)) (lastOf p (as.map kind)) bs := by
  induction as generalizing nesting p with
  | nil => simp [Along, nestingAfter, lastOf]
  | cons a as ih =>
    rw [List.cons_append, Along, Along, ih, and_assoc]
    rfl

theorem AlikeBehind.along_iff (h : AlikeBehind p q) :
    Along kind P nesting p as ↔ Along kind P nesting q as := by
  cases as with
  | nil => rfl
  | cons a as => rw [Along, Along, nestingBehind, nestingBehind, h.opensObject_eq, h.roleOf_eq]

/-- What holds of everything holds along. -/
theorem Along.of_forall (h : ∀ a ∈ as, ∀ opens, P opens a) : Along kind P nesting p as := by
  induction as generalizing nesting p with
  | nil => trivial
  | cons a as ih =>
    obtain ⟨ha, has⟩ := List.forall_mem_cons.mp h
    exact ⟨ha _, ih has⟩

theorem Along.and (h : Along kind P nesting p as) (h' : Along kind Q nesting p as) :
    Along kind (fun opens a => P opens a ∧ Q opens a) nesting p as := by
  induction as generalizing nesting p with
  | nil => trivial
  | cons a as ih => exact ⟨⟨h.1, h'.1⟩, ih h.2 h'.2⟩

theorem along_map {f : β → α} {bs : List β} : Along kind P nesting p (bs.map f) ↔
    Along (fun b => kind (f b)) (fun opens b => P opens (f b)) nesting p bs := by
  induction bs generalizing nesting p with
  | nil => rfl
  | cons b bs ih => rw [List.map_cons, Along, Along, ih]

/-- A condition is met along a row that corresponds to one that meets it. -/
theorem Along.forall₂ {kindB : β → TokenKind} {R : α → β → Prop} {Q : Bool → β → Prop}
    {bs : List β} (hkind : ∀ a b, R a b → kind a = kindB b)
    (hQ : ∀ opens a b, R a b → P opens a → Q opens b) (h : Along kind P nesting p as)
    (hR : List.Forall₂ R as bs) : Along kindB Q nesting p bs := by
  induction hR generalizing nesting p with
  | nil => trivial
  | cons hab _ ih =>
    obtain ⟨ha, has⟩ := h
    rw [hkind _ _ hab] at has
    exact ⟨hQ _ _ _ hab ha, ih has⟩

/-- A row between brackets of its own can be left out, if a brace means the same behind it as in
front of it. -/
theorem Along.of_balanced (hb : Balanced (as.map kind))
    (hlast : AlikeBehind (lastOf p (as.map kind)) p) (h : Along kind P nesting p (as ++ bs)) :
    Along kind P nesting p bs := by
  have hrest := (along_append.mp h).2
  rw [hb.nestingAfter_eq] at hrest
  exact hlast.along_iff.mp hrest

end Along

section Merged

variable {ts us : List Token} {P : Bool → Token → Prop} {nesting : List Bracket}
  {p : Option TokenKind}

/-- Names and numbers open no brackets. -/
theorem balanced_names (h : ∀ t ∈ ts, t.kind = .name ∨ t.kind = .int) :
    Balanced (ts.map Token.kind) := by
  induction ts with
  | nil => exact .nil
  | cons t ts ih =>
    obtain ⟨ht, hts⟩ := List.forall_mem_cons.mp h
    refine .cons (fun nesting p => ?_) (ih hts)
    obtain ht | ht := ht <;> rw [ht] <;> rfl

/-- Behind names and numbers a brace opens no object. -/
theorem alikeBehind_names (h : ∀ t ∈ ts, t.kind = .name ∨ t.kind = .int)
    (hp : AlikeBehind p (some .name)) :
    AlikeBehind (lastOf p (ts.map Token.kind)) (some .name) := by
  induction ts generalizing p with
  | nil => exact hp
  | cons t ts ih =>
    obtain ⟨ht, hts⟩ := List.forall_mem_cons.mp h
    refine ih hts ?_
    obtain ht | ht := ht <;> rw [ht] <;> rfl

/-- What is met along a row is met after tokens have grown together, if the names that they grow
together to meet it anywhere. -/
theorem Merged.along {stem : List Char} (h : Merged stem ts us)
    (hP : ∀ opens u, u.kind = .name → placeholderIndex? stem u.text = none → P opens u)
    (ha : Along Token.kind P nesting p ts) : Along Token.kind P nesting p us := by
  induction h generalizing nesting p with
  | nil => trivial
  | cons t _ ih => exact ⟨ha.1, ih ha.2⟩
  | @grown t u ks ts us ht hu hnew hks _ ih =>
    obtain ⟨-, hrest⟩ := ha
    rw [ht] at hrest
    refine ⟨hP _ u hu hnew, ?_⟩
    rw [hu]
    exact ih (hrest.of_balanced (balanced_names hks) (alikeBehind_names hks rfl))

end Merged

/-! ## One step -/

section Step

variable {kind : α → TokenKind} {nesting : List Bracket} {p : Option TokenKind} {a : α}
  (as : List α)

/-- A brace that opens an object begins a run. -/
theorem piecesFrom_opensObject (h : (roleOf nesting p (kind a)).1 = .opensObject) :
    piecesFrom kind nesting p none (a :: as) =
      piecesFrom kind (nestingBehind nesting p (kind a)) (some (kind a)) (some [a]) as := by
  conv => lhs; unfold piecesFrom
  simp only [nestingBehind, h]

theorem piecesFrom_float (h : kind a = .float) :
    piecesFrom kind nesting p none (a :: as) =
      .held [a] :: piecesFrom kind nesting (some .float) none as := by
  conv => lhs; unfold piecesFrom
  simp only [h, roleOf]

/-- What opens no object and is no float is kept. -/
theorem piecesFrom_kept (ho : (roleOf nesting p (kind a)).1 ≠ .opensObject)
    (hf : kind a ≠ .float) :
    piecesFrom kind nesting p none (a :: as) =
      .kept a :: piecesFrom kind (nestingBehind nesting p (kind a)) (some (kind a)) none as := by
  have hf : (roleOf nesting p (kind a)).1 ≠ .float := fun h => hf (kind_of_float h)
  conv => lhs; unfold piecesFrom
  rw [nestingBehind]
  cases h : (roleOf nesting p (kind a)).1 <;> simp_all only [ne_eq, not_true_eq_false]

/-- The brace of an outermost object ends its run. -/
theorem piecesFrom_closesOutermost (run : List α)
    (h : (roleOf nesting p (kind a)).1 = .closesOutermost) :
    piecesFrom kind nesting p (some run) (a :: as) = .held (a :: run).reverse ::
      piecesFrom kind (nestingBehind nesting p (kind a)) (some (kind a)) none as := by
  conv => lhs; unfold piecesFrom
  simp only [nestingBehind, h]

/-- Inside an object everything goes into the run. -/
theorem piecesFrom_pending (run : List α)
    (h : (roleOf nesting p (kind a)).1 ≠ .closesOutermost) :
    piecesFrom kind nesting p (some run) (a :: as) =
      piecesFrom kind (nestingBehind nesting p (kind a)) (some (kind a)) (some (a :: run)) as := by
  conv => lhs; unfold piecesFrom
  rw [nestingBehind]
  cases hr : (roleOf nesting p (kind a)).1 <;> simp_all only [ne_eq, not_true_eq_false]

theorem holdsFrom_kept {k : TokenKind} (ks : List TokenKind)
    (ho : (roleOf nesting p k).1 ≠ .opensObject) (hf : k ≠ .float) :
    holdsFrom nesting p false (k :: ks) =
      holdsFrom (nestingBehind nesting p k) (some k) false ks := by
  have hf : (roleOf nesting p k).1 ≠ .float := fun h => hf (kind_of_float h)
  conv => lhs; unfold holdsFrom
  rw [nestingBehind]
  cases h : (roleOf nesting p k).1 <;> simp_all only [ne_eq, not_true_eq_false]

/-- Only a brace that opens an object puts one around what follows. -/
theorem object_not_mem_nestingBehind {k : TokenKind} (hn : .object ∉ nesting)
    (hk : (roleOf nesting p k).1 ≠ .opensObject) : .object ∉ nestingBehind nesting p k := by
  have htail : .object ∉ nesting.tail := fun h => hn (List.mem_of_mem_tail h)
  cases k with
  | punctuator mark =>
    revert hk
    simp only [nestingBehind, roleOf]
    split
    · split <;> simp_all
    split
    · cases nesting with
      | nil => simp
      | cons b outer => cases b <;> simp_all
    split
    · simp [hn]
    split
    · simp [hn]
    split <;> simp_all
  | _ => exact hn

theorem role_brace (nesting : List Bracket) (p : Option TokenKind) :
    (roleOf nesting p (.punctuator '{')).1 = .opensObject ↔ opensObject nesting p = true := by
  rw [role_punctuator, if_pos rfl]
  split <;> simp_all

end Step

/-! ## Objects and floats -/

/-- The kinds of a row that is an object wherever a brace may open one. -/
structure IsObjectRow (ks : List TokenKind) : Prop where
  balanced : Balanced ks
  head : ks.head? = some (.punctuator '{')
  held : ∀ nesting p, .object ∉ nesting → opensObject nesting p = true →
    piecesFrom id nesting p none ks = [.held ks]
  last : ∀ p, AlikeBehind (lastOf p ks) (some .name)

/-- A piece as a member of a row: a name stands for what is held back. -/
def Piece.kind (kind : α → TokenKind) : Piece α → TokenKind
  | kept a => kind a
  | held _ => .name

/-- An object has to stand where a brace opens one. -/
def Piece.Opens (kind : α → TokenKind) (opens : Bool) : Piece α → Prop
  | kept _ => True
  | held run => (run.map kind).head? = some (.punctuator '{') → opens = true

/-- What stays must not be held back: it is no float, and no brace that opens an object. -/
def Piece.Stays (kind : α → TokenKind) (opens : Bool) : Piece α → Prop
  | kept a => kind a ≠ .float ∧ (kind a = .punctuator '{' → opens = false)
  | held _ => True

section Cut

variable {kind : α → TokenKind} {nesting : List Bracket} {p : Option TokenKind}

/-- An object that has been opened is either closed, or everything behind its brace stays. -/
theorem piecesFrom_pending_cases (nesting : List Bracket) (p : Option TokenKind)
    (run as : List α) :
    piecesFrom kind nesting p (some run) as = (run.reverse ++ as).map .kept ∨
      ∃ front back nesting' p', as = front ++ back ∧
        piecesFrom kind nesting p (some run) as =
          .held (run.reverse ++ front) :: piecesFrom kind nesting' p' none back := by
  induction as generalizing nesting p run with
  | nil => exact .inl (by simp [piecesFrom])
  | cons a as ih =>
    by_cases hc : (roleOf nesting p (kind a)).1 = .closesOutermost
    · refine .inr ⟨[a], as, nestingBehind nesting p (kind a), some (kind a), rfl, ?_⟩
      rw [piecesFrom_closesOutermost as run hc, List.reverse_cons]
    · rw [piecesFrom_pending as run hc]
      obtain h | ⟨front, back, nesting', p', rfl, h⟩ := ih _ _ (a :: run)
      · exact .inl (by rw [h, List.reverse_cons, List.append_assoc, List.singleton_append])
      · refine .inr ⟨a :: front, back, nesting', p', rfl, ?_⟩
        rw [h, List.reverse_cons, List.append_assoc, List.singleton_append]

/-- A row that is held back on its own is held back in front of any other one. -/
theorem piecesFrom_pending_append {run as : List α} (hne : as ≠ [])
    (h : piecesFrom kind nesting p (some run) as = [.held (run.reverse ++ as)]) (rest : List α) :
    piecesFrom kind nesting p (some run) (as ++ rest) = .held (run.reverse ++ as) ::
      piecesFrom kind (nestingAfter nesting p (as.map kind)) (lastOf p (as.map kind)) none
        rest := by
  induction as generalizing nesting p run with
  | nil => contradiction
  | cons a as ih =>
    by_cases hc : (roleOf nesting p (kind a)).1 = .closesOutermost
    · rw [piecesFrom_closesOutermost as run hc] at h
      have hall := congrArg (List.flatMap Piece.all) (List.cons.inj h).2
      obtain rfl : as = [] := by simpa [flatMap_all_piecesFrom] using hall
      rw [List.singleton_append, piecesFrom_closesOutermost rest run hc, List.reverse_cons]
      rfl
    · rw [piecesFrom_pending as run hc] at h
      have hne : as ≠ [] := by
        rintro rfl
        have hmem : .held (run.reverse ++ [a]) ∈ piecesFrom kind (nestingBehind nesting p (kind a))
            (some (kind a)) (some (a :: run)) [] := h ▸ List.mem_singleton_self _
        simp [piecesFrom] at hmem
      have hall := @ih _ _ (a :: run) hne (by simpa using h)
      rw [List.cons_append, piecesFrom_pending (as ++ rest) run hc, hall]
      simp [nestingAfter, lastOf]

/-- An object is held back in front of any row. -/
theorem IsObjectRow.piecesFrom_append {run : List α} (h : IsObjectRow (run.map kind))
    (hn : .object ∉ nesting) (ho : opensObject nesting p = true) (rest : List α) :
    piecesFrom kind nesting p none (run ++ rest) =
      .held run :: piecesFrom kind nesting (some .name) none rest := by
  have hown : piecesFrom kind nesting p none run = [.held run] := by
    have hrel : List.Forall₂ (fun a k => kind a = k) run (run.map kind) :=
      List.forall₂_map_right_iff.mpr (List.forall₂_same.mpr fun _ _ => rfl)
    have hkind : ∀ a k, kind a = k → kind a = id k := fun _ _ h => h
    have hpieces := forall₂_piecesFrom hkind nesting p hrel .none
    rw [h.held nesting p hn ho] at hpieces
    have hall := flatMap_all_piecesFrom kind nesting p none run
    generalize piecesFrom kind nesting p none run = ps at hpieces hall
    cases hpieces with
    | cons hrun hnil =>
      cases hnil
      cases hrun
      simpa [Piece.all] using hall
  obtain ⟨a, as, rfl⟩ := List.exists_cons_of_ne_nil (l := run) (by
    rintro rfl
    simpa using h.head)
  have ha : kind a = .punctuator '{' := by simpa using h.head
  have hopens : (roleOf nesting p (kind a)).1 = .opensObject := by rw [ha, role_brace, ho]
  have hne : as ≠ [] := by
    rintro rfl
    rw [piecesFrom_opensObject [] hopens] at hown
    simp [piecesFrom] at hown
  rw [piecesFrom_opensObject as hopens] at hown
  have hall := piecesFrom_pending_append hne hown rest
  have hnesting := h.balanced.nestingAfter_eq nesting p
  rw [List.map_cons, nestingAfter] at hnesting
  have hlast : AlikeBehind (lastOf (some (kind a)) (as.map kind)) (some .name) := h.last p
  rw [List.cons_append, piecesFrom_opensObject (as ++ rest) hopens, hall, hnesting,
    hlast.piecesFrom_eq]
  rfl

/-- Whether a run is an object or a float. -/
def IsHeldRow (kind : α → TokenKind) (run : List α) : Prop :=
  IsObjectRow (run.map kind) ∨ ∃ a, run = [a] ∧ kind a = .float

/-- A run is cut out whole, wherever it stands outside of objects. -/
theorem piecesFrom_isHeldRow {run : List α} (h : IsHeldRow kind run) (hn : .object ∉ nesting)
    (ho : (Piece.held run).Opens kind (opensObject nesting p)) (rest : List α) :
    piecesFrom kind nesting p none (run ++ rest) =
      .held run :: piecesFrom kind nesting (some .name) none rest := by
  obtain h | ⟨a, rfl, ha⟩ := h
  · exact h.piecesFrom_append hn (ho h.head) rest
  · have hlike : AlikeBehind (some .float) (some .name) := rfl
    rw [List.singleton_append, piecesFrom_float rest ha, hlike.piecesFrom_eq]

/-- **Finding pieces again**: a row of pieces is cut into these pieces if each object stands where
a brace opens one, and each brace that stays where it opens none. -/
theorem piecesFrom_of_along {ps : List (Piece α)} (hn : .object ∉ nesting)
    (hruns : ∀ run, .held run ∈ ps → IsHeldRow kind run)
    (ho : Along (Piece.kind kind) (Piece.Opens kind) nesting p ps)
    (hs : Along (Piece.kind kind) (Piece.Stays kind) nesting p ps) :
    piecesFrom kind nesting p none (ps.flatMap Piece.all) = ps := by
  induction ps generalizing nesting p with
  | nil => rfl
  | cons q ps ih =>
    have hruns' : ∀ run, .held run ∈ ps → IsHeldRow kind run :=
      fun run hrun => hruns run (List.mem_cons_of_mem _ hrun)
    cases q with
    | kept a =>
      obtain ⟨⟨hf, hbrace⟩, hs⟩ := hs
      have hopens : (roleOf nesting p (kind a)).1 ≠ .opensObject := by
        intro hopens
        have ha := kind_of_opensObject hopens
        rw [ha, role_brace, hbrace ha] at hopens
        contradiction
      have hrest := ih (object_not_mem_nestingBehind hn hopens) hruns' ho.2 hs
      rw [Piece.kind] at hrest
      rw [List.flatMap_cons, Piece.all, List.singleton_append, piecesFrom_kept _ hopens hf, hrest]
    | held run =>
      have hrest : piecesFrom kind nesting (some .name) none (ps.flatMap Piece.all) = ps :=
        ih hn hruns' ho.2 hs.2
      rw [List.flatMap_cons, Piece.all,
        piecesFrom_isHeldRow (hruns run List.mem_cons_self) hn ho.1, hrest]

/-- The pieces of a row stand in such places, except for the brace of an object that is never
closed. With names in place of what is held back, nothing is. -/
theorem along_piecesFrom {as : List α} (hn : .object ∉ nesting)
    (hruns : ∀ run, .held run ∈ piecesFrom kind nesting p none as → IsHeldRow kind run) :
    Along (Piece.kind kind) (Piece.Opens kind) nesting p (piecesFrom kind nesting p none as) ∧
      holdsFrom nesting p false
        ((piecesFrom kind nesting p none as).map (Piece.kind kind)) = false := by
  induction hlen : as.length using Nat.strongRecOn generalizing nesting p as with
  | ind n ih =>
    -- What is held back stands in its place, and the rest is a shorter row behind a name.
    have hheld {run back : List α} (has : as = run ++ back) (hne : run ≠ [])
        (hrun : IsHeldRow kind run) (ho : (Piece.held run).Opens kind (opensObject nesting p)) :
        Along (Piece.kind kind) (Piece.Opens kind) nesting p (piecesFrom kind nesting p none as) ∧
          holdsFrom nesting p false
            ((piecesFrom kind nesting p none as).map (Piece.kind kind)) = false := by
      have hpieces := piecesFrom_isHeldRow hrun hn ho back
      rw [← has] at hpieces
      have hshorter : back.length < n := by
        rw [← hlen, has, List.length_append]
        have hpos := List.length_pos_iff.mpr hne
        omega
      rw [hpieces] at hruns ⊢
      obtain ⟨halong, hholds⟩ := ih back.length hshorter hn
        (fun r hr => hruns r (List.mem_cons_of_mem _ hr)) rfl
      exact ⟨⟨ho, halong⟩, hholds⟩
    cases as with
    | nil => exact ⟨trivial, rfl⟩
    | cons a as =>
      by_cases ho : (roleOf nesting p (kind a)).1 = .opensObject
      · have hopens : opensObject nesting p = true := by
          rwa [kind_of_opensObject ho, role_brace] at ho
        have hpieces := piecesFrom_opensObject as ho
        obtain h | ⟨front, back, nesting', p', rfl, h⟩ :=
          piecesFrom_pending_cases (nestingBehind nesting p (kind a)) (some (kind a)) [a] as
        -- Either the object is never closed and all is kept, or its run ends somewhere.
        · rw [hpieces, h]
          refine ⟨.of_forall (by simp [Piece.Opens]), ?_⟩
          have hnone : heldRuns (piecesFrom kind nesting p none (a :: as)) = [] := by
            rw [hpieces, h]
            simp [heldRuns]
          rw [heldRuns_piecesFrom_eq_nil_iff] at hnone
          simpa [Function.comp_def, Piece.kind] using hnone
        · rw [hpieces, h] at hruns
          exact hheld (List.cons_append ..) (List.cons_ne_nil _ _)
            (hruns _ List.mem_cons_self) fun _ => hopens
      by_cases hf : kind a = .float
      · exact hheld List.singleton_append.symm (List.cons_ne_nil _ _) (.inr ⟨a, rfl, hf⟩)
          (by simp [Piece.Opens, hf])
      · have hpieces := piecesFrom_kept as ho hf
        rw [hpieces] at hruns ⊢
        obtain ⟨halong, hholds⟩ := ih as.length (by simp [← hlen])
          (object_not_mem_nestingBehind hn ho)
          (fun r hr => hruns r (List.mem_cons_of_mem _ hr)) rfl
        refine ⟨⟨trivial, halong⟩, ?_⟩
        rw [List.map_cons, Piece.kind, holdsFrom_kept _ ho hf, hholds]

/-- If a float behind a row is held back and nothing else is, no brace in the row opens an
object. -/
theorem along_of_float {x : α} {as : List α} (hf : ∀ a ∈ as, kind a ≠ .float)
    (h : piecesFrom kind nesting p none (as ++ [x]) = as.map .kept ++ [.held [x]]) :
    Along kind (fun opens a => kind a = .punctuator '{' → opens = false) nesting p as := by
  induction as generalizing nesting p with
  | nil => trivial
  | cons a as ih =>
    obtain ⟨hfa, hfas⟩ := List.forall_mem_cons.mp hf
    by_cases ho : (roleOf nesting p (kind a)).1 = .opensObject
    · rw [List.cons_append, piecesFrom_opensObject _ ho] at h
      obtain hall | ⟨front, back, nesting', p', -, hheld⟩ :=
        piecesFrom_pending_cases (nestingBehind nesting p (kind a)) (some (kind a)) [a] (as ++ [x])
      · rw [hall] at h
        simp at h
      · rw [hheld] at h
        simp at h
    · rw [List.cons_append, piecesFrom_kept _ ho hfa] at h
      refine ⟨fun ha => ?_, ih hfas (List.cons.inj h).2⟩
      rw [ha, role_brace] at ho
      exact Bool.not_eq_true _ ▸ ho

end Cut

end QueryDoc.Source
