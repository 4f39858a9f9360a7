import QueryDoc.Source.Mask
import QueryDoc.Proofs.Source.Cut

/-!
# QueryDoc.Proofs.Source.Placeholder

Names in source text, and the names that stand for literals.

* `lexemes_name_append`: a name in front of a text takes all name characters with it.
* `occursIn_placeholderStem`: no placeholder occurs in the document that it is made for.
* `literalNamed?_placeholder`: the `i`-th placeholder stands for the `i`-th literal, and
  `placeholderIndex?_of_mem_tokens` says that no token of the document stands for one.
-/

namespace QueryDoc

namespace Source

/-! ## Names -/

/-- A name in front of a text takes all name characters with it. -/
theorem lexemes_name_append {name : List Char} (h : isName name = true) (rest : List Char) :
    lexemes (name ++ rest) =
      .token ⟨.name, name ++ rest.takeWhile isNameChar⟩ :: lexemes (rest.dropWhile isNameChar) := by
  have hname : isName (name ++ rest.takeWhile isNameChar) = true :=
    isName_append h (forall_mem_takeWhile rest)
  have hlexemes := (Lexeme.Form.name hname (head_dropWhile rest)).endsBefore.lexemes_append
  rwa [Lexeme.text, List.append_assoc, List.takeWhile_append_dropWhile] at hlexemes

/-- A name ends in front of everything that could not continue it. -/
theorem endsBefore_name {name rest : List Char} (h : isName name = true)
    (hr : ∀ c ∈ rest.head?, isNameChar c = false) :
    (Lexeme.token ⟨.name, name⟩).EndsBefore rest :=
  (Lexeme.Form.name h hr).endsBefore

/-! ## The stem -/

theorem occursIn_iff {text cs : List Char} : occursIn text cs = true ↔ text <:+: cs := by
  induction cs with
  | nil => simp [occursIn]
  | cons c cs ih => simp [occursIn, List.isPrefixOf_iff_prefix, List.infix_cons_iff, ih]

/-- The search goes on as long as the text occurs. -/
theorem extendUntilNew_eq (document : List Char) (n : Nat) (text : List Char) :
    ∃ k ≤ n, extendUntilNew document n text = text ++ List.replicate k '_' ∧
      ∀ j < k, text ++ List.replicate j '_' <:+: document := by
  induction n generalizing text with
  | zero => exact ⟨0, by simp [extendUntilNew]⟩
  | succ n ih =>
    rw [extendUntilNew]
    split
    · next hocc =>
      obtain ⟨k, hk, heq, hshorter⟩ := ih (text ++ ['_'])
      refine ⟨k + 1, by omega, by rw [heq, List.append_assoc]; rfl, fun j hj => ?_⟩
      cases j with
      | zero => simpa using occursIn_iff.mp hocc
      | succ j => simpa [List.replicate_succ] using hshorter j (by omega)
    · exact ⟨0, by simp⟩

/-- A name that no number goes on with: it begins with an underscore. -/
structure IsStem (stem : List Char) : Prop where
  name : isName stem = true
  head : stem.head? = some '_'
  /-- One letter stands in one place only, so that no stem begins inside another. -/
  letter : ∀ i, stem[i]? = some 'p' ↔ i = 2

/-- The search only adds underscores at the end, so that what it finds is still a stem. -/
theorem isStem_placeholderStem (document : List Char) : IsStem (placeholderStem document) := by
  obtain ⟨k, -, hk, -⟩ := extendUntilNew_eq document document.length "__preserved_literal_".toList
  have hbase : ∀ i < 20, "__preserved_literal_".toList[i]? = some 'p' ↔ i = 2 := by decide
  have hlen : "__preserved_literal_".toList.length = 20 := by decide
  rw [placeholderStem, hk]
  refine ⟨isName_append (by decide) fun c hc => ?_, rfl, fun i => ?_⟩
  · rw [List.eq_of_mem_replicate hc]
    rfl
  · rw [List.getElem?_append, hlen]
    split
    · next hi => exact hbase i hi
    · next hi =>
      simp only [List.getElem?_replicate]
      grind

/-- Only a text that is not longer can occur, so that longer and longer prefixes end the search. -/
theorem length_le_of_occursIn {text cs : List Char} (h : occursIn text cs = true) :
    text.length ≤ cs.length := by
  induction cs with
  | nil =>
    rw [List.isEmpty_iff.mp h]
  | cons c cs ih =>
    rcases Bool.or_eq_true _ _ ▸ h with h | h
    · exact (List.isPrefixOf_iff_prefix.mp h).length_le
    · exact Nat.le_succ_of_le (ih h)

/-- Each underscore makes the text longer, so that it outgrows the document. -/
theorem occursIn_extendUntilNew (document : List Char) (n : Nat) (text : List Char)
    (h : document.length < text.length + n) :
    occursIn (extendUntilNew document n text) document = false := by
  induction n generalizing text with
  | zero =>
    rw [extendUntilNew, ← Bool.not_eq_true]
    intro hocc
    have hle := length_le_of_occursIn hocc
    omega
  | succ n ih =>
    rw [extendUntilNew]
    split
    · refine ih (text ++ ['_']) ?_
      simp only [List.length_append, List.length_singleton]
      omega
    · next hno => exact Bool.not_eq_true _ ▸ hno

/-- The prefix that is found does not occur in the document. -/
theorem occursIn_placeholderStem (document : List Char) :
    occursIn (placeholderStem document) document = false := by
  refine occursIn_extendUntilNew document document.length _ ?_
  have hlen : "__preserved_literal_".toList.length = 20 := by decide
  omega

/-! ## Placeholders -/

/-- A placeholder can stand wherever the grammar allows a name. -/
theorem IsStem.isName_placeholder {stem : List Char} (h : IsStem stem) (i : Nat) :
    isName (placeholder stem i) = true := by
  refine isName_append (isName_append h.name fun c hc => ?_) (List.all_eq_true.mp (by decide))
  exact isNameChar_digit (Decimal.isDigit_of_mem_digits hc)

/-- A placeholder begins with an underscore, so that nothing behind a literal turns into digits. -/
theorem IsStem.head_placeholder {stem : List Char} (h : IsStem stem) (i : Nat) (rest : List Char) :
    (placeholder stem i ++ rest).head? = some '_' := by
  obtain ⟨cs, rfl⟩ := List.head?_eq_some_iff.mp h.head
  rfl

theorem stripFront_append (front text : List Char) :
    stripFront front (front ++ text) = some text := by
  induction front with
  | nil => rfl
  | cons c front ih => rw [List.cons_append, stripFront, if_pos rfl, ih]

theorem eq_append_of_stripFront {front text rest : List Char}
    (h : stripFront front text = some rest) : text = front ++ rest := by
  fun_induction stripFront front text with
  | case1 => exact Option.some.inj h
  | case2 => contradiction
  | case3 f front text ih => rw [ih h, List.cons_append]
  | case4 => contradiction

theorem stripBack_append (back text : List Char) : stripBack back (text ++ back) = some text := by
  rw [stripBack, List.reverse_append, stripFront_append, Option.map_some, List.reverse_reverse]

theorem digits_ne_nil (n : Nat) : Decimal.digits n ≠ [] :=
  List.ne_nil_of_length_pos Nat.length_toDigits_pos

/-- The number of a placeholder is read back from it. -/
theorem placeholderIndex?_placeholder (stem : List Char) (i : Nat) :
    placeholderIndex? stem (placeholder stem i) = some i := by
  have hdigits : Decimal.digits i ≠ [] ∧ (Decimal.digits i).all Char.isDigit = true :=
    ⟨digits_ne_nil i, List.all_eq_true.mpr fun _ hc => Decimal.isDigit_of_mem_digits hc⟩
  rw [placeholderIndex?, placeholder, List.append_assoc, stripFront_append, Option.bind_some,
    stripBack_append, Option.bind_some, if_pos hdigits, Decimal.ofDigits_digits]

/-- A placeholder stands for the literal that has its number. -/
theorem literalNamed?_placeholder (stem : List Char) (literals : List (List Char)) (i : Nat) :
    literalNamed? stem literals (placeholder stem i) = literals[i]? := by
  rw [literalNamed?, placeholderIndex?_placeholder, Option.bind_some]

/-! ## Names of a document -/

/-- A token stands in the text that it is cut from, so that none of them can be a placeholder. -/
theorem text_infix_of_mem_tokens {t : Token} {cs : List Char} (h : t ∈ tokens cs) :
    t.text <:+: cs := by
  obtain ⟨front, back, hsplit⟩ := List.append_of_mem (mem_lexemes_of_mem_tokens h)
  have hall := flatMap_text_lexemes cs
  rw [hsplit, List.flatMap_append, List.flatMap_cons] at hall
  exact ⟨_, _, by rw [← hall, List.append_assoc]; rfl⟩

/-- No token of a document is made like a placeholder. -/
theorem placeholderIndex?_of_mem_tokens {t : Token} {document : List Char}
    (h : t ∈ tokens document) : placeholderIndex? (placeholderStem document) t.text = none := by
  cases hi : placeholderIndex? (placeholderStem document) t.text with
  | none => rfl
  | some i =>
    obtain ⟨rest, hrest, -⟩ := Option.bind_eq_some_iff.mp hi
    have hfront : placeholderStem document <+: t.text :=
      ⟨rest, (eq_append_of_stripFront hrest).symm⟩
    have hocc := occursIn_iff.mpr (hfront.isInfix.trans (text_infix_of_mem_tokens h))
    rw [occursIn_placeholderStem] at hocc
    contradiction

end Source

end QueryDoc
