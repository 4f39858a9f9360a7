import Mathlib
import QueryDoc.Text

/-!
# QueryDoc.Proofs.Bytes

Texts as bytes. A byte below 128 is an ASCII character, and no other character has such a byte
in it, so what looks for ASCII characters may look at bytes instead (`startsWith_bytesOf`,
`dropWhile_bytesOf`). Texts are in the order of their bytes (`utf8Bytes_lt_iff`).
-/

namespace QueryDoc

/-- The bytes of a text in UTF-8. -/
def utf8Bytes (s : String) : List UInt8 := s.toUTF8.data.toList

/-- A text is encoded character by character. -/
theorem utf8Bytes_eq_flatMap (s : String) :
    utf8Bytes s = s.toList.flatMap String.utf8EncodeChar := by
  have h : s.toUTF8 = s.toList.utf8Encode := String.utf8Encode_toList.symm
  rw [utf8Bytes, h, List.utf8Encode, List.data_toByteArray]

/-! ## Rows of characters -/

/-- The bytes of a row of characters. -/
def bytesOf (cs : List Char) : List UInt8 := cs.flatMap String.utf8EncodeChar

@[simp] theorem bytesOf_nil : bytesOf [] = [] := rfl

theorem bytesOf_cons (c : Char) (cs : List Char) :
    bytesOf (c :: cs) = String.utf8EncodeChar c ++ bytesOf cs := List.flatMap_cons

/-- The bytes of characters are counted by their sizes. -/
theorem length_bytesOf (cs : List Char) : (bytesOf cs).length = byteSize cs := by
  induction cs with
  | nil => rfl
  | cons c cs ih =>
    rw [bytesOf_cons, List.length_append, String.length_utf8EncodeChar, ih, byteSize]

theorem utf8ByteSize_eq_byteSize (s : String) : s.utf8ByteSize = byteSize s.toList := by
  rw [← length_bytesOf, bytesOf, ← utf8Bytes_eq_flatMap]
  rfl

/-! ## ASCII characters -/

/-- An ASCII character takes one byte. -/
theorem utf8EncodeChar_ascii {c : Char} (h : c.toNat < 128) :
    String.utf8EncodeChar c = [c.toUInt8] := by
  have hv : c.val.toNat ≤ 127 := Nat.le_of_lt_succ h
  simp only [String.utf8EncodeChar, if_pos hv]
  rfl

/-- No byte of any other character is an ASCII character. -/
theorem le_of_mem_utf8EncodeChar {c : Char} (h : ¬ c.toNat < 128) {b : UInt8}
    (hb : b ∈ String.utf8EncodeChar c) : 128 ≤ b.toNat := by
  have hv : ¬ c.val.toNat ≤ 127 := fun hle => h (Nat.lt_succ_of_le hle)
  simp only [String.utf8EncodeChar, if_neg hv] at hb
  split_ifs at hb <;>
    · simp only [List.mem_cons, List.not_mem_nil, or_false] at hb
      rcases hb with rfl | hb
      · rw [UInt8.toNat_ofNat']
        omega
      · grind [UInt8.toNat_ofNat']

theorem toNat_toUInt8 {c : Char} (h : c.toNat < 128) : c.toUInt8.toNat = c.toNat := by
  rw [Char.toUInt8, UInt32.toNat_toUInt8]
  exact Nat.mod_eq_of_lt (Nat.lt_trans h (by decide))

/-- A character of one byte is read back from it. -/
theorem ofUInt8_toUInt8 {c : Char} (h : c.toNat < 128) : Char.ofUInt8 c.toUInt8 = c :=
  Char.ext (UInt32.toNat_inj.mp ((UInt8.toNat_toUInt32 _).trans (toNat_toUInt8 h)))

theorem toUInt8_eq_iff {c d : Char} (hc : c.toNat < 128) (hd : d.toNat < 128) :
    c.toUInt8 = d.toUInt8 ↔ c = d := by
  refine ⟨fun h => ?_, fun h => h ▸ rfl⟩
  rw [← ofUInt8_toUInt8 hc, ← ofUInt8_toUInt8 hd, h]

/-- The bytes of a character are its own byte, or none of them is an ASCII character. -/
theorem utf8EncodeChar_cases (c : Char) :
    (c.toNat < 128 ∧ String.utf8EncodeChar c = [c.toUInt8]) ∨
      ∃ b bs, String.utf8EncodeChar c = b :: bs ∧ ¬ c.toNat < 128 ∧
        ∀ x ∈ b :: bs, 128 ≤ x.toNat := by
  by_cases h : c.toNat < 128
  · exact .inl ⟨h, utf8EncodeChar_ascii h⟩
  · obtain ⟨b, bs, hbs⟩ := List.exists_cons_of_ne_nil (String.utf8EncodeChar_ne_nil (c := c))
    exact .inr ⟨b, bs, hbs, h, fun x hx => le_of_mem_utf8EncodeChar h (hbs ▸ hx)⟩

/-- Whether a byte is an ASCII character of this class. -/
def byteIs (p : Char → Bool) (b : UInt8) : Bool := b.toNat < 128 && p (Char.ofUInt8 b)

/-- An ASCII character and its byte are in the same classes. -/
theorem byteIs_toUInt8 (p : Char → Bool) {c : Char} (h : c.toNat < 128) :
    byteIs p c.toUInt8 = p c := by
  simp [byteIs, toNat_toUInt8 h, ofUInt8_toUInt8 h, h]

/-- The bytes of longer characters are in no class. -/
theorem byteIs_of_le (p : Char → Bool) {b : UInt8} (h : 128 ≤ b.toNat) : byteIs p b = false := by
  simp [byteIs, h]

theorem ne_toUInt8_of_le {c : Char} (hc : c.toNat < 128) {b : UInt8} (h : 128 ≤ b.toNat) :
    b ≠ c.toUInt8 := by
  rintro rfl
  rw [toNat_toUInt8 hc] at h
  omega

/-! ## Looking for ASCII characters -/

/-- Whether bytes begin with those of these characters. -/
def startsWith (front : List Char) (bs : List UInt8) : Bool := (bytesOf front).isPrefixOf bs

/-- Bytes begin with ASCII characters exactly if the text does. -/
theorem startsWith_bytesOf {front : List Char} (hf : ∀ c ∈ front, c.toNat < 128)
    (cs : List Char) : startsWith front (bytesOf cs) = front.isPrefixOf cs := by
  induction front generalizing cs with
  | nil => simp [startsWith]
  | cons c front ih =>
    obtain ⟨hc, hf⟩ := List.forall_mem_cons.mp hf
    unfold startsWith at ih ⊢
    rw [bytesOf_cons, utf8EncodeChar_ascii hc, List.singleton_append]
    cases cs with
    | nil => rfl
    | cons d cs =>
      rw [bytesOf_cons]
      obtain ⟨hd, hbytes⟩ | ⟨b, bs, hbytes, hd, hle⟩ := utf8EncodeChar_cases d
      · have hsame : (c.toUInt8 == d.toUInt8) = (c == d) := by
          rw [Bool.eq_iff_iff, beq_iff_eq, beq_iff_eq, toUInt8_eq_iff hc hd]
        rw [hbytes, List.singleton_append, List.isPrefixOf, List.isPrefixOf, ih hf, hsame]
      · have hne : (c == d) = false := beq_eq_false_iff_ne.mpr fun heq => hd (heq ▸ hc)
        have hne' : (c.toUInt8 == b) = false :=
          beq_eq_false_iff_ne.mpr (ne_toUInt8_of_le hc (hle b List.mem_cons_self)).symm
        rw [hbytes, List.cons_append, List.isPrefixOf, List.isPrefixOf, hne, hne']
        rfl

/-- Bytes are passed as the characters that they belong to are. -/
theorem dropWhile_bytesOf {p : Char → Bool} {q : UInt8 → Bool}
    (hall : ∀ c, p c = true → ∀ b ∈ String.utf8EncodeChar c, q b = true)
    (hfirst : ∀ c, p c = false → ∀ b ∈ (String.utf8EncodeChar c).head?, q b = false)
    (cs : List Char) : (bytesOf cs).dropWhile q = bytesOf (cs.dropWhile p) := by
  induction cs with
  | nil => rfl
  | cons c cs ih =>
    rw [bytesOf_cons, List.dropWhile_cons]
    cases hp : p c with
    | true => rw [List.dropWhile_append_of_pos (hall c hp), ih, if_pos rfl]
    | false =>
      obtain ⟨b, bs, hbytes⟩ := List.exists_cons_of_ne_nil (String.utf8EncodeChar_ne_nil (c := c))
      have hb := hfirst c hp b (by rw [hbytes]; rfl)
      rw [if_neg Bool.false_ne_true, bytesOf_cons, hbytes, List.cons_append, List.dropWhile_cons,
        if_neg (Bool.not_eq_true _ ▸ hb)]

section Class

variable {p : Char → Bool} (hp : ∀ c, p c = true → c.toNat < 128)
include hp

/-- All bytes of a character are in the classes of the character. -/
theorem byteIs_utf8EncodeChar (c : Char) : ∀ b ∈ String.utf8EncodeChar c, byteIs p b = p c := by
  intro b hb
  obtain ⟨hc, hbytes⟩ | ⟨_, _, hbytes, hc, hle⟩ := utf8EncodeChar_cases c
  · rw [hbytes, List.mem_singleton] at hb
    rw [hb, byteIs_toUInt8 p hc]
  · rw [byteIs_of_le p (hle b (hbytes ▸ hb))]
    exact (Bool.eq_false_of_not_eq_true fun h => hc (hp c h)).symm

/-- Dropping bytes drops whole characters. -/
theorem dropWhile_byteIs (cs : List Char) :
    (bytesOf cs).dropWhile (byteIs p) = bytesOf (cs.dropWhile p) :=
  dropWhile_bytesOf (fun c hc b hb => (byteIs_utf8EncodeChar hp c b hb).trans hc)
    (fun c hc b hb => (byteIs_utf8EncodeChar hp c b (List.mem_of_mem_head? hb)).trans hc) cs

theorem dropWhile_not_byteIs (cs : List Char) :
    (bytesOf cs).dropWhile (fun b => !byteIs p b) = bytesOf (cs.dropWhile fun c => !p c) :=
  dropWhile_bytesOf (fun c hc b hb => by rw [byteIs_utf8EncodeChar hp c b hb, hc])
    (fun c hc b hb => by rw [byteIs_utf8EncodeChar hp c b (List.mem_of_mem_head? hb), hc]) cs

end Class

/-! ## Order -/

/-- The bytes of a character decide its order, whatever follows them. -/
theorem utf8EncodeChar_append_lt {c d : Char} (h : c < d) (xs ys : List UInt8) :
    String.utf8EncodeChar c ++ xs < String.utf8EncodeChar d ++ ys := by
  have hval : c.val.toNat < d.val.toNat := h
  have hd : d.val.toNat < 0x110000 := by
    rcases d.valid with hd | hd <;> simp at hd ⊢ <;> omega
  simp only [String.utf8EncodeChar]
  split_ifs <;>
    simp only [List.cons_append, List.nil_append, List.cons_lt_cons_iff, UInt8.lt_iff_toNat_lt,
      ← UInt8.toNat_inj, UInt8.toNat_ofNat']
  all_goals try omega
  -- Four bytes on both sides: the first digit to the base 64 in which they differ decides.
  have h₁ := Nat.div_le_div_right (c := 64) hval.le
  have h₂ := Nat.div_le_div_right (c := 4096) hval.le
  have h₃ := Nat.div_le_div_right (c := 262144) hval.le
  rcases h₃.lt_or_eq with h₃ | h₃
  · omega
  rcases h₂.lt_or_eq with h₂ | h₂
  · omega
  rcases h₁.lt_or_eq with h₁ | h₁
  · omega
  · omega

/-- The same bytes in front do not change the order. -/
theorem append_lt_append_iff (front as bs : List UInt8) : front ++ as < front ++ bs ↔ as < bs := by
  induction front with
  | nil => rfl
  | cons a front ih => simp [ih]

/-- Bytes are in the order of the code points that they encode. -/
theorem flatMap_utf8EncodeChar_lt_iff {cs ds : List Char} :
    cs.flatMap String.utf8EncodeChar < ds.flatMap String.utf8EncodeChar ↔ cs < ds := by
  induction cs generalizing ds with
  | nil =>
    cases ds with
    | nil => simp
    | cons d ds =>
      obtain ⟨b, bs, hbs⟩ := List.exists_cons_of_ne_nil (String.utf8EncodeChar_ne_nil (c := d))
      simp [hbs]
  | cons c cs ih =>
    cases ds with
    | nil => simp
    | cons d ds =>
      rw [List.flatMap_cons, List.flatMap_cons, List.cons_lt_cons_iff]
      rcases lt_trichotomy c d with h | rfl | h
      · simp [h, utf8EncodeChar_append_lt h]
      · simp [ih, append_lt_append_iff]
      · have hbytes := List.lt_asymm (utf8EncodeChar_append_lt h
          (ds.flatMap String.utf8EncodeChar) (cs.flatMap String.utf8EncodeChar))
        simp [h.not_gt, h.ne', hbytes]

/-- Texts are compared as their bytes are. -/
theorem utf8Bytes_lt_iff {s t : String} : utf8Bytes s < utf8Bytes t ↔ s < t := by
  rw [utf8Bytes_eq_flatMap, utf8Bytes_eq_flatMap, flatMap_utf8EncodeChar_lt_iff, String.lt_iff]

end QueryDoc
