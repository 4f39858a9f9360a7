import QueryDoc.Proofs.Grammar.Agreement
import QueryDoc.Proofs.Source.Placeholder

/-!
# QueryDoc.Proofs.Grammar.Exact

Tokens on their own. A token that the strict cut has taken off a text is cut in the same way on
its own (`isExact_of_mem_scanFrom`), and in front of every text that begins with a stop
(`Token.IsExact.endsBefore`); only a mark and a spread may have anything behind them.

So does the lenient cut, if the token is no string with a bare carriage return.
-/

namespace QueryDoc.Grammar

open Source (StartsQuietly NumberText)

/-! ## Stops -/

/-- Characters that may stand behind a spelling: what ends a number, but for the brace that
opens an object. -/
def isStop (c : Char) : Bool := endsNumber c && c != '\x7b'

/-- Whether a text begins with a stop, if with anything. -/
def Stops (cs : List Char) : Prop := ∀ c ∈ cs.head?, isStop c = true

theorem Stops.nil : Stops [] := by simp [Stops]

theorem Stops.of_head {cs ds : List Char} (h : Stops cs) (hd : ds.head? = cs.head?) : Stops ds := by
  rwa [Stops, hd]

theorem stops_cons {c : Char} {cs : List Char} : Stops (c :: cs) ↔ isStop c = true := by
  simp [Stops]

theorem Stops.endsNumber {cs : List Char} (h : Stops cs) :
    ∀ c ∈ cs.head?, endsNumber c = true := fun c hc =>
  (Bool.and_eq_true _ _ ▸ h c hc).1

theorem Stops.startsQuietly {cs : List Char} (h : Stops cs) : StartsQuietly cs := fun c hc =>
  isQuiet_of_endsNumber (h.endsNumber c hc)

theorem not_isStop_of_isNameChar {c : Char} (h : isNameChar c = true) : isStop c = false := by
  cases hc : isStop c with
  | false => rfl
  | true =>
    rw [isStop, Bool.and_eq_true] at hc
    rw [not_isNameChar_of_endsNumber hc.1] at h
    contradiction

theorem not_isStop_of_numeric {c : Char} (h : c = '-' ∨ c.isDigit = true) : isStop c = false := by
  rw [isStop, not_endsNumber_of_numeric h, Bool.false_and]

theorem isStop_of_isMark {c : Char} (h : isMark c = true) (hc : c ≠ '\x7b') : isStop c = true := by
  simp [isStop, endsNumber_of_isMark h, hc]

/-- A stop behind a string does not make the quotes in front of it three. -/
theorem Stops.not_quotes {body rest : List Char} (h : Stops rest) (hne : body ≠ [])
    (hquotes : ¬ ['"', '"'] <+: body) : ¬ ['"', '"'] <+: body ++ rest := by
  rintro ⟨more, hmore⟩
  rcases body with _ | ⟨c, _ | ⟨d, body⟩⟩
  · contradiction
  · -- The string is empty, and a quote stands behind it.
    obtain rfl : rest = '"' :: more := (List.cons.inj hmore).2.symm
    exact absurd (stops_cons.mp h) (by decide)
  · simp only [List.cons_append, List.nil_append, List.cons.injEq] at hmore
    exact hquotes ⟨body, by rw [← hmore.1, ← hmore.2.1]; rfl⟩

/-! ## Tokens on their own -/

/-- Whether a text on its own is cut as this token. -/
def Token.IsExact (t : Token) : Prop := ∃ c cs, t.text = c :: cs ∧ splitToken? c cs = some (t, [])

theorem isExact_iff {t : Token} : t.IsExact ↔ t.Form [] := by
  constructor
  · rintro ⟨c, cs, -, hsplit⟩
    exact form_of_splitToken? hsplit
  · intro h
    obtain ⟨c, cs, htext, -, -, hsplit⟩ := h.endsBefore
    exact ⟨c, cs, by rw [← htext, List.append_nil], hsplit⟩

/-- A token that has been cut off a text is cut in the same way on its own. -/
theorem isExact_of_splitToken? {c : Char} {cs rest : List Char} {t : Token}
    (h : splitToken? c cs = some (t, rest)) : t.IsExact := by
  refine isExact_iff.mpr ?_
  cases form_of_splitToken? h with
  | blockString hbody => exact .blockString hbody
  | @string body _ hquotes hbody =>
    refine .string (fun hq => hquotes ?_) hbody
    rw [List.append_nil] at hq
    exact hq.trans (List.prefix_append body rest)
  | spread => exact .spread
  | number hstart hkind hin _ => exact .number hstart hkind hin fun _ hc => by contradiction
  | name hname _ => exact .name hname fun _ hc => by contradiction
  | mark hc => exact .mark hc

theorem isExact_of_mem_scanFrom {room : Nat} {p : Position} {cs : List Char} {t : Token}
    (h : t ∈ (scanFrom room p cs).items.map Prod.fst) : t.IsExact := by
  fun_induction scanFrom room p cs with
  | case1 => contradiction
  | case2 room p c cs hi ih => exact ih h
  | case3 room p cs hi ih => exact ih h
  | case4 => contradiction
  | case5 => contradiction
  | case6 room p c cs hi hc t' rest hs left hroom ih =>
    rw [Scan.cons, List.map_cons, List.mem_cons] at h
    obtain rfl | h := h
    · exact isExact_of_splitToken? hs
    · exact ih h

/-- The text of an exact token decides which one it is. -/
theorem Token.IsExact.eq {t u : Token} (ht : t.IsExact) (hu : u.IsExact)
    (h : t.text = u.text) : t = u := by
  obtain ⟨c, cs, htext, hsplit⟩ := ht
  obtain ⟨d, ds, hutext, husplit⟩ := hu
  rw [htext, hutext] at h
  cases h
  rw [hsplit] at husplit
  cases husplit
  rfl

theorem isExact_name {name : List Char} (h : isName name = true) :
    (Token.mk .name name).IsExact :=
  isExact_iff.mpr (.name h fun _ hc => by contradiction)

/-! ## Tokens in front of a text -/

/-- Whether a token of this kind needs a stop behind it. -/
def isOpen : Source.TokenKind → Bool
  | .punctuator c => c == '\x7d'
  | .spread => false
  | _ => true

/-- A token on its own is cut off in front of a stop. -/
theorem Token.IsExact.endsBefore {t : Token} (h : t.IsExact) {rest : List Char}
    (hr : isOpen t.kind.toSource = true → Stops rest) : t.EndsBefore rest := by
  refine Form.endsBefore ?_
  cases isExact_iff.mp h with
  | blockString hbody => exact .blockString hbody
  | @string body _ hquotes hbody =>
    rw [List.append_nil] at hquotes
    exact .string ((hr rfl).not_quotes (by rintro rfl; contradiction) hquotes) hbody
  | spread => exact .spread
  | number hstart hkind hin _ =>
    have hstops : Stops rest := hr (by obtain rfl | rfl := eq_of_numberKind? hkind <;> rfl)
    exact .number hstart hkind hin hstops.endsNumber
  | name hname _ =>
    have hstops : Stops rest := hr rfl
    exact .name hname fun c hc => not_isNameChar_of_endsNumber (hstops.endsNumber c hc)
  | mark hc => exact .mark hc

/-- The lenient cut finds the tokens of the strict one. -/
theorem Token.EndsBefore.lexeme {t : Token} {rest : List Char} (h : t.EndsBefore rest)
    (ht : ¬ t.HasBareReturn) : (Source.Lexeme.token t.toSource).EndsBefore rest :=
  h.form.endsBefore_toSource_iff.mpr ht

/-- A number is cut off in front of a stop. -/
theorem endsBefore_number {n : NumberText} (hn : n.IsRegular)
    (hstart : ∃ c ∈ n.text.head?, c = '-' ∨ c.isDigit = true) {rest : List Char} (hr : Stops rest) :
    (Source.Lexeme.token ⟨n.kind, n.text⟩).EndsBefore rest :=
  (Source.Lexeme.Form.number hstart (hn.splitNumber_append hr.startsQuietly)).endsBefore

end QueryDoc.Grammar
