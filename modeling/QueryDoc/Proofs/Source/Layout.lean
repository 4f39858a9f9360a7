import Mathlib
import QueryDoc.Source.Mask

/-!
# QueryDoc.Proofs.Source.Layout

What `layOut` writes for the tokens of values: the items of a list and the fields of an
object with a comma and a blank between them, and a blank between a key and its value.
-/

namespace QueryDoc.Source

/-- What is written between two items. -/
def separator (previous : Option TokenKind) : List Char :=
  if previous.any TokenKind.canEndItem then [',', ' '] else []

/-- Whether a row of tokens is laid out as this text, wherever it stands, and as one item:
behind the last token of another item it is separated from that, and the next one will be
separated from it. -/
def IsItem (row : List Token) (text : List Char) : Prop :=
  ∃ last, last.canEndItem = true ∧ ∀ previous rest,
    layOutFrom previous (row ++ rest) = separator previous ++ text ++ layOutFrom (some last) rest

theorem IsItem.layOut {row : List Token} {text : List Char} (h : IsItem row text) :
    layOut row = text := by
  obtain ⟨last, -, hrow⟩ := h
  have hall := hrow none []
  rw [List.append_nil] at hall
  simpa [Source.layOut, separator, layOutFrom] using hall

theorem isItem_one {t : Token} (hs : t.kind.canStartItem = true) (he : t.kind.canEndItem = true) :
    IsItem [t] t.text := by
  have hcolon : t.kind ≠ .punctuator ':' := by
    intro hk
    rw [hk] at he
    contradiction
  refine ⟨t.kind, he, fun previous rest => ?_⟩
  simp [layOutFrom, separator, hs, hcolon]

/-- A dollar sign in front of a name. -/
theorem isItem_reference (name : List Char) :
    IsItem [⟨.punctuator '$', ['$']⟩, ⟨.name, name⟩] ('$' :: name) := by
  refine ⟨.name, rfl, fun previous rest => ?_⟩
  simp [layOutFrom, separator, TokenKind.canStartItem, TokenKind.canEndItem]

/-- A key in front of a value. -/
theorem IsItem.keyed {row : List Token} {text : List Char} (h : IsItem row text)
    (key : List Char) :
    IsItem (⟨.name, key⟩ :: ⟨.punctuator ':', [':']⟩ :: row) (key ++ ':' :: ' ' :: text) := by
  obtain ⟨last, hlast, hrow⟩ := h
  refine ⟨last, hlast, fun previous rest => ?_⟩
  simp [layOutFrom, separator, TokenKind.canStartItem, TokenKind.canEndItem, hrow]

section Rows

variable {f : α → String} {g : α → List Token}

/-- Items in a row, of which there is at least one. -/
theorem isItem_intercalate {a : α} {as : List α} (h : ∀ b ∈ a :: as, IsItem (g b) (f b).toList) :
    IsItem ((a :: as).flatMap g) (", ".intercalate ((a :: as).map f)).toList := by
  induction as generalizing a with
  | nil =>
    rw [List.flatMap_singleton, List.map_singleton, String.intercalate_singleton]
    exact h a List.mem_cons_self
  | cons b as ih =>
    obtain ⟨ha, hrest⟩ := List.forall_mem_cons.mp h
    obtain ⟨middle, hmiddle, hfirst⟩ := ha
    obtain ⟨last, hlast, hothers⟩ := ih hrest
    refine ⟨last, hlast, fun previous rest => ?_⟩
    rw [List.flatMap_cons, List.append_assoc, hfirst, hothers]
    simp [String.intercalate_cons_cons, separator, hmiddle]

/-- Items between brackets. -/
theorem isItem_brackets {o c : Char} (ho : (TokenKind.punctuator o).canStartItem = true)
    (ho' : (TokenKind.punctuator o).canEndItem = false)
    (hc : (TokenKind.punctuator c).canStartItem = false)
    (hc' : (TokenKind.punctuator c).canEndItem = true)
    {as : List α} (h : ∀ a ∈ as, IsItem (g a) (f a).toList) :
    IsItem (⟨.punctuator o, [o]⟩ :: (as.flatMap g ++ [⟨.punctuator c, [c]⟩]))
      (o :: ((", ".intercalate (as.map f)).toList ++ [c])) := by
  have hcolon : o ≠ ':' ∧ c ≠ ':' := by
    constructor
    · rintro rfl
      contradiction
    · rintro rfl
      contradiction
  refine ⟨.punctuator c, hc', fun previous rest => ?_⟩
  cases as with
  | nil => simp [layOutFrom, separator, ho, ho', hcolon]
  | cons a as =>
    obtain ⟨last, -, hrow⟩ := isItem_intercalate h
    rw [List.cons_append, List.append_assoc, layOutFrom, hrow]
    simp [layOutFrom, separator, ho, ho', hc, hcolon]

end Rows

end QueryDoc.Source
