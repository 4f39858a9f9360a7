import QueryDoc.Proofs.Grammar.Restoring

/-!
# QueryDoc.Proofs.Grammar.Joining

Texts put together from the spellings of terminals. `Laid style cs ps` says that a text is
written in the pieces `ps`; how its strings are written is left to `style`, since printing
and building write them in different ways.

A text that begins with a stop may stand behind any other (`Trails`), and one that ends with
a line end in front of any other (`Closed`).
-/

namespace QueryDoc.Grammar

open Source (Lexeme Piece forall₂_append heldRuns layOut)

/-! ## Tokens that stand for terminals -/

section Tokens

variable (style : String → List Char → Prop)

/-- Whether a terminal is written as this text. -/
def Terminal.IsWritten : Terminal → List Char → Prop
  | .string s, text => style s text
  | u, text => text = u.spelling

/-- A token that is found in front of every stop and written for a terminal. -/
structure WrittenAs (t : Source.Token) (u : Terminal) : Prop where
  solid : IsSolid t
  kind : t.kind = u.kind
  text : u.IsWritten style t.text

/-- A text that is written in these pieces. -/
def Laid (cs : List Char) (ps : List (Piece Terminal)) : Prop :=
  ∃ qs, Written cs qs ∧ List.Forall₂ (Piece.Rel (WrittenAs style)) qs ps

/-- A text that begins with a stop, so that it may stand behind any other one. -/
structure Trails (cs : List Char) (ps : List (Piece Terminal)) : Prop where
  laid : Laid style cs ps
  stops : Stops cs

/-- A text that may stand in front of any other one. -/
def Closed (cs : List Char) (ps : List (Piece Terminal)) : Prop :=
  ∀ ds rs, Laid style ds rs → Laid style (cs ++ ds) (ps ++ rs)

end Tokens

variable {style : String → List Char → Prop} {cs ds : List Char} {ps rs : List (Piece Terminal)}

/-- A terminal that is spelled as it is can be written as its token. -/
theorem writtenAs_token {u : Terminal} (hu : u.IsPlain)
    (hs : ∀ s, u = .string s → style s u.spelling) : WrittenAs style u.token u where
  solid := isSolid_token hu
  kind := rfl
  text := by
    cases u with
    | string s => exact hs s rfl
    | _ => rfl

/-- A row of tokens for a float or an object. -/
theorem isLiteral_of_isHeld {v : Value} (hv : v.IsHeld) {run : List Source.Token}
    (h : List.Forall₂ (fun t u => Source.Token.kind t = Terminal.kind u) run v.terminals)
    (hs : ∀ t ∈ run, IsSolid t) : IsLiteral run where
  plain t ht := by
    obtain ⟨u, hu, htu⟩ := Source.exists_mem_of_forall₂ h.flip ht
    refine ⟨hs t ht, fun hspread => ?_⟩
    rw [htu] at hspread
    cases u with
    | spread => exact spread_not_mem_terminals v hu
    | _ => contradiction
  first := by
    obtain ⟨x, rfl⟩ | ⟨fields, rfl⟩ := hv
    · obtain ⟨t, _, ht, -, rfl⟩ := List.forall₂_cons_right_iff.mp h
      exact ⟨t, _, rfl, .inl ht⟩
    · obtain ⟨t, _, ht, -, rfl⟩ := List.forall₂_cons_right_iff.mp h
      exact ⟨t, _, rfl, .inr ht⟩
  last := by
    have hback := List.rel_reverse h
    obtain ⟨x, rfl⟩ | ⟨fields, rfl⟩ := hv
    · obtain ⟨t, front, ht, -, heq⟩ := List.forall₂_cons_right_iff.mp hback
      exact ⟨front.reverse, t, by simpa using congrArg List.reverse heq, .inl ht⟩
    · rw [Value.terminals, List.reverse_cons, List.reverse_append] at hback
      obtain ⟨t, front, ht, -, heq⟩ := List.forall₂_cons_right_iff.mp hback
      exact ⟨front.reverse, t, by simpa using congrArg List.reverse heq, .inr ht⟩

/-! ## Pieces one behind the other -/

namespace Laid

theorem nil : Laid style [] [] := ⟨[], .nil, .nil⟩

/-- A character without meaning may stand in front. -/
theorem blank {c : Char} (hc : isIgnorable c = true) (h : Laid style cs ps) :
    Laid style (c :: cs) ps := by
  obtain ⟨qs, hqs, hrel⟩ := h
  exact ⟨qs, .blank hc hqs, hrel⟩

/-- A token may be put in front of a laid text that it does not run into. -/
theorem token {t : Source.Token} {u : Terminal} (ht : WrittenAs style t u)
    (hr : isOpen t.kind = true → Stops cs) (h : Laid style cs ps) :
    Laid style (t.text ++ cs) (.kept u :: ps) := by
  obtain ⟨qs, hqs, hrel⟩ := h
  exact ⟨.kept t :: qs, .kept ht.solid hr hqs, .cons (.kept ht) hrel⟩

theorem terminal {u : Terminal} (hu : u.IsPlain) (hs : u.kind ≠ .string)
    (hr : u.isOpen = true → Stops cs) (h : Laid style cs ps) :
    Laid style (u.spelling ++ cs) (.kept u :: ps) := by
  refine .token (writtenAs_token hu fun s heq => ?_) (fun ho => hr ?_) h
  · exact absurd rfl (heq ▸ hs)
  · rwa [← isOpen_kind]

/-- A single terminal is laid out by its spelling. -/
theorem one {u : Terminal} (hu : u.IsPlain) (hs : u.kind ≠ .string) :
    Laid style u.spelling [.kept u] := by
  have h : Laid style (u.spelling ++ []) _ := .terminal hu hs (fun _ => .nil) .nil
  rwa [List.append_nil] at h

theorem word {s : String} (h : isName s.toList = true) : Laid style s.toList [.kept (.name s)] :=
  .one (u := .name s) h nofun

/-- A mark that needs nothing behind it. -/
theorem mark {c : Char} (hc : isMark c = true) (hne : c ≠ '\x7d') (h : Laid style cs ps) :
    Laid style (c :: cs) (.kept (.mark c) :: ps) :=
  .terminal (u := .mark c) hc nofun (fun ho => absurd (eq_of_beq ho) hne) h

theorem spread (h : Laid style cs ps) :
    Laid style ('.' :: '.' :: '.' :: cs) (.kept .spread :: ps) :=
  .terminal (u := .spread) trivial nofun (fun ho => by contradiction) h

theorem append (h : Laid style cs ps) (h' : Laid style ds rs) (hd : Stops ds) :
    Laid style (cs ++ ds) (ps ++ rs) := by
  obtain ⟨qs, hqs, hrel⟩ := h
  obtain ⟨qs', hqs', hrel'⟩ := h'
  exact ⟨qs ++ qs', hqs.append hqs' hd, forall₂_append hrel hrel'⟩

/-- Laid texts may be joined where the second one begins with a stop. -/
theorem trail (h : Laid style cs ps) (h' : Trails style ds rs) :
    Laid style (cs ++ ds) (ps ++ rs) := h.append h'.laid h'.stops

/-- A text behind its key. -/
theorem keyed {key text : String} (hkey : isName key.toList = true)
    (h : Laid style text.toList ps) :
    Laid style (key ++ ": " ++ text).toList (.kept (.name key) :: .kept (.mark ':') :: ps) := by
  rw [String.toList_append, String.toList_append, List.append_assoc]
  refine (Laid.word hkey).append (.mark rfl (by decide) (.blank rfl h)) ?_
  exact stops_cons.mpr rfl

/-- A text between brackets. -/
theorem brackets {o c : Char} (ho : isMark o = true) (hne : o ≠ '\x7d') (hc : isMark c = true)
    (hs : isStop c = true) (h : Laid style cs ps) :
    Laid style (o :: (cs ++ [c])) (.kept (.mark o) :: (ps ++ [.kept (.mark c)])) :=
  .mark ho hne (h.append (.one (u := .mark c) hc nofun) (stops_cons.mpr hs))

/-- Texts with a comma between two of them. -/
theorem intercalate {f : α → String} {g : α → List (Piece Terminal)} {as : List α}
    (h : ∀ a ∈ as, Laid style (f a).toList (g a)) :
    Laid style (", ".intercalate (as.map f)).toList (as.flatMap g) := by
  induction as with
  | nil => exact .nil
  | cons a as ih =>
    obtain ⟨ha, has⟩ := List.forall_mem_cons.mp h
    cases as with
    | nil =>
      rw [List.map_singleton, String.intercalate_singleton, List.flatMap_singleton]
      exact ha
    | cons b as =>
      rw [List.map_cons, List.map_cons, String.intercalate_cons_cons, String.toList_append,
        String.toList_append, List.append_assoc, List.flatMap_cons]
      exact ha.append (.blank (c := ',') rfl (.blank (c := ' ') rfl (ih has))) (stops_cons.mpr rfl)

/-- A literal that is laid out from the tokens of its terminals. -/
theorem held {run : List Source.Token} {us : List Terminal} (hrun : IsLiteral run)
    (hus : List.Forall₂ (WrittenAs style) run us) : Laid style (layOut run) [.held us] := by
  have h := Written.held hrun .nil .nil
  rw [List.append_nil] at h
  exact ⟨[.held run], h, .cons (.held hus) .nil⟩

end Laid

namespace Trails

theorem nil : Trails style [] [] := ⟨.nil, .nil⟩

theorem append (h : Trails style cs ps) (h' : Trails style ds rs) :
    Trails style (cs ++ ds) (ps ++ rs) where
  laid := h.laid.trail h'
  stops := by
    cases cs with
    | nil => exact h'.stops
    | cons c cs => exact h.stops

/-- A trail may begin with a blank. -/
theorem blank {c : Char} (hc : isIgnorable c = true) (hs : isStop c = true)
    (h : Laid style cs ps) : Trails style (c :: cs) ps :=
  ⟨.blank hc h, stops_cons.mpr hs⟩

/-- A trail may begin with a mark. -/
theorem mark {c : Char} (hc : isMark c = true) (hs : isStop c = true) (hne : c ≠ '\x7d')
    (h : Laid style cs ps) : Trails style (c :: cs) (.kept (.mark c) :: ps) :=
  ⟨.mark hc hne h, stops_cons.mpr hs⟩

theorem flatMap {f : α → List Char} {g : α → List (Piece Terminal)} {as : List α}
    (h : ∀ a ∈ as, Trails style (f a) (g a)) : Trails style (as.flatMap f) (as.flatMap g) := by
  induction as with
  | nil => exact .nil
  | cons a as ih =>
    obtain ⟨ha, has⟩ := List.forall_mem_cons.mp h
    rw [List.flatMap_cons, List.flatMap_cons]
    exact ha.append (ih has)

/-- A text between parentheses, if there is anything to put there. -/
theorem parentheses {text : String} {g : α → List Slot} {as : List α} (hne : ∀ a, g a ≠ [])
    (h : Laid style text.toList (slotPieces (as.flatMap g))) :
    Trails style (if as.isEmpty then "" else "(" ++ text ++ ")").toList
      (slotPieces (bracketed '(' ')' (as.flatMap g))) := by
  cases as with
  | nil => exact .nil
  | cons a as =>
    have hslots : (a :: as).flatMap g ≠ [] := by simp [hne a]
    have hall := h.brackets (o := '(') (c := ')') rfl (by decide) rfl rfl
    rw [bracketed_of_ne_nil hslots, slotPieces_mark, slotPieces_append]
    exact ⟨by simpa using hall, by simp [stops_cons, isStop, endsNumber]⟩

end Trails

namespace Closed

theorem nil : Closed style [] [] := fun _ _ h => h

theorem append (h : Closed style cs ps) (h' : Closed style ds rs) :
    Closed style (cs ++ ds) (ps ++ rs) := by
  intro es ws hes
  rw [List.append_assoc, List.append_assoc]
  exact h _ _ (h' _ _ hes)

/-- A text that leaves what follows alone is laid out by itself. -/
theorem laid (h : Closed style cs ps) : Laid style cs ps := by
  have hnil := h [] [] .nil
  rwa [List.append_nil, List.append_nil] at hnil

end Closed

/-! ## Strings as they are -/

/-- Strings of these characters, with nothing but quotes around them. -/
def Verbatim (inner : Char → Bool) (s : String) (text : List Char) : Prop :=
  (∀ c ∈ s.toList, inner c = true) ∧ text = (Terminal.string s).spelling

/-- What is written character by character is the token of its terminal. -/
theorem WrittenAs.eq_token {inner : Char → Bool} {t : Source.Token} {u : Terminal}
    (h : WrittenAs (Verbatim inner) t u) : t = u.token := by
  obtain ⟨kind, text⟩ := t
  obtain ⟨-, hkind, htext⟩ := h
  obtain rfl : kind = u.kind := hkind
  obtain rfl : text = u.spelling := by
    cases u with
    | string s => exact htext.2
    | _ => exact htext
  rfl

theorem WrittenAs.isPlain {t : Source.Token} {u : Terminal} (h : WrittenAs (Verbatim isBare) t u) :
    u.IsPlain := by
  have hform := h.eq_token ▸ h.solid.hasForm
  cases u with
  | mark c => exact hform.1
  | name s => exact hform
  | string s => exact h.text.1
  | _ => trivial

/-- A text that spells terminals is written in pieces of one token each. -/
theorem Spelled.laid {us : List Terminal} (h : Spelled cs us)
    (hs : ∀ s, .string s ∈ us → style s (Terminal.string s).spelling) :
    Laid style cs (us.map .kept) := by
  induction h with
  | nil => exact .nil
  | blank hc _ ih => exact .blank hc (ih hs)
  | @terminal u cs us hu hr h ih =>
    have hus := ih fun s hmem => hs s (List.mem_cons_of_mem _ hmem)
    refine .token (writtenAs_token hu ?_) (fun ho => hr ?_) hus
    · rintro s rfl
      exact hs s List.mem_cons_self
    · rwa [← isOpen_kind]

/-- A text that is written in pieces of one token each spells their terminals. -/
theorem Laid.spelled {us : List Terminal} (h : Laid (Verbatim isBare) cs (us.map .kept)) :
    Spelled cs us := by
  obtain ⟨qs, hqs, hrel⟩ := h
  obtain ⟨ts, rfl, hts⟩ := Source.exists_of_forall₂_kept hrel
  clear hrel
  generalize hps : ts.map Piece.kept = ps at hqs
  induction hqs generalizing ts us with
  | nil =>
    obtain rfl : ts = [] := by simpa using hps
    cases hts
    exact .nil
  | blank hc _ ih => exact .blank hc (ih ts hts hps)
  | held => cases ts <;> simp at hps
  | @kept t cs qs ht hr _ ih =>
    obtain ⟨t', ts, rfl, htt', rfl⟩ := List.map_eq_cons_iff.mp hps
    obtain rfl : t' = t := by simpa using htt'
    cases hts with
    | @cons _ u _ us htu hrest =>
      obtain rfl := htu.eq_token
      exact .terminal htu.isPlain (fun ho => hr ((isOpen_kind u).trans ho)) (ih ts hrest rfl)

/-- A text that is written in the pieces of slots is cut into pieces there. -/
theorem Laid.written {slots : List Slot} (h : Laid style cs (slotPieces slots))
    (hp : Source.pieces Terminal.kind (slotTerminals slots) = slotPieces slots) :
    Written cs (Source.pieces Source.Token.kind (Source.tokens cs)) ∧
      List.Forall₂ (Piece.Rel (WrittenAs style))
        (Source.pieces Source.Token.kind (Source.tokens cs)) (slotPieces slots) := by
  obtain ⟨qs, hqs, hrel⟩ := h
  have htokens := Source.forall₂_all hrel
  rw [← hqs.tokens, ← hp, Source.flatMap_all_pieces] at htokens
  have hpieces := Source.forall₂_pieces (fun t u (htu : WrittenAs style t u) => htu.kind) htokens
  rw [hp] at hpieces
  have hsame : qs = Source.pieces Source.Token.kind (Source.tokens cs) := by
    refine Source.eq_of_forall₂_rel hrel hpieces ?_
    rw [Source.flatMap_all_pieces, hqs.tokens]
  rw [← hsame]
  exact ⟨hqs, hrel⟩

end QueryDoc.Grammar
