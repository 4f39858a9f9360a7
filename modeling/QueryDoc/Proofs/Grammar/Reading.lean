import QueryDoc.Proofs.Grammar.Completeness
import QueryDoc.Proofs.Grammar.Exact
import QueryDoc.Proofs.Grammar.Filling

/-!
# QueryDoc.Proofs.Grammar.Reading

Source tokens as terminals of the grammar (`Reads`), and the rows of tokens that make up a
document (`Derives`).

`exists_of_parse` says what it means that a text has been parsed: the grammar derives the
document from terminals that are read off the tokens of the text, one by one.
-/

namespace QueryDoc.Grammar

/-! ## Bare carriage returns -/

theorem hasBareReturn_splitString (cs : List Char) :
    hasBareReturn (Source.splitString cs).1 = false := by
  fun_induction Source.splitString cs with
  | case1 => rfl
  | case2 c cs taken rest hs ih =>
    rw [hs] at ih
    rw [hasBareReturn]
    exact ih
  | case3 cs => rfl
  | case4 => rfl
  | case5 c cs hesc hquote hline taken rest hs ih =>
    rw [hs] at ih
    have hreturn : c ≠ '\r' := by
      rintro rfl
      exact hline rfl
    by_cases hback : c = '\\'
    · cases cs with
      | nil =>
        cases hs
        simp [hback, hasBareReturn]
      | cons x xs => exact absurd rfl (hesc x xs hback)
    · simp [hasBareReturn_of_ne hback, hreturn, ih]

/-- What the lenient cut takes for a string has no bare carriage return. -/
theorem not_hasBareReturn_of_mem_tokens {t : Token} (ht : t.IsExact) {cs : List Char}
    (h : t.toSource ∈ Source.tokens cs) : ¬ t.HasBareReturn := by
  rintro ⟨hk, hreturn⟩
  obtain ⟨rest, hends⟩ := Source.endsBefore_of_mem_tokens h
  obtain ⟨body, htext, hquotes, -⟩ := (isExact_iff.mp ht).exists_of_string hk
  rw [List.append_nil] at hquotes
  rw [Source.endsBefore_iff_splitLexeme (show _ = '"' :: (body ++ rest) by
    rw [← List.cons_append, ← htext]; rfl)] at hends
  have hlexeme := congrArg Prod.fst hends
  by_cases hblock : ['"', '"'] <+: body ++ rest
  · -- The block string would be the token, but its text has too few quotes in front.
    obtain ⟨more, hmore⟩ := hblock
    rw [← hmore] at hlexeme
    have htexts : '"' :: '"' :: '"' :: (Source.splitBlockString more).1 = '"' :: body :=
      htext ▸ congrArg Source.Lexeme.text hlexeme
    exact hquotes ⟨_, (List.cons.inj htexts).2⟩
  · rw [Source.splitLexeme_string hblock] at hlexeme
    have htexts : '"' :: (Source.splitString (body ++ rest)).1 = t.text :=
      congrArg Source.Lexeme.text hlexeme
    rw [← htexts, List.tail_cons, hasBareReturn_splitString] at hreturn
    contradiction

/-- A source string that does not begin with three quotes is cut off as a string between quotes,
if at all. -/
theorem Token.Form.splitString?_of_toSource {t : Token} {rest body : List Char} (h : t.Form rest)
    (ht : t.toSource = ⟨.string, '"' :: body⟩) (hquotes : ¬ ['"', '"'] <+: body) :
    splitString? body = some (body, []) := by
  cases h with
  | @blockString inner =>
    obtain rfl : '"' :: '"' :: inner = body := (List.cons.inj (Source.Token.mk.inj ht).2).2
    exact absurd ⟨inner, rfl⟩ hquotes
  | @string inner _ _ h =>
    obtain rfl : inner = body := (List.cons.inj (Source.Token.mk.inj ht).2).2
    exact h
  | number _ hkind => obtain rfl | rfl := eq_of_numberKind? hkind <;> cases ht
  | _ => cases ht

/-- Where the lenient cut finds a whole string, so does the strict one. -/
theorem not_hasBareReturn_of_splitToken? {c : Char} {cs rest : List Char} {t : Token}
    (h : splitToken? c cs = some (t, rest))
    (hs : ∀ u, (Source.splitLexeme c cs).1 = .token u → u.kind = .string →
      ∃ g : Token, g.IsExact ∧ g.toSource = u) : ¬ t.HasBareReturn := by
  rintro ⟨hk, hreturn⟩
  obtain ⟨body, htext, hquotes, hbody⟩ := (form_of_splitToken? h).exists_of_string hk
  have hwhole := splitToken?_append h
  rw [htext] at hwhole
  obtain ⟨rfl, rfl⟩ := List.cons.inj hwhole
  have hlex := Source.splitLexeme_string hquotes
  have happ := Source.splitString_append (body ++ rest)
  have hfree := hasBareReturn_splitString (body ++ rest)
  generalize (Source.splitString (body ++ rest)).1 = lenient at *
  generalize (Source.splitString (body ++ rest)).2 = back at *
  obtain ⟨g, hg, hgtoken⟩ := hs _ (congrArg Prod.fst hlex) rfl
  have hfront : ¬ ['"', '"'] <+: lenient := fun hq =>
    hquotes (hq.trans ⟨back, happ⟩)
  -- Both are what the strict cut takes off the same text.
  have hlenient := splitString?_front
    ((isExact_iff.mp hg).splitString?_of_toSource hgtoken hfront) back
  have hstrict := splitString?_front hbody rest
  rw [happ] at hlenient
  obtain ⟨rfl, -⟩ := Prod.mk.inj (Option.some.inj (hlenient.symm.trans hstrict))
  rw [htext, List.tail_cons, hfree] at hreturn
  contradiction

theorem tokens_ignorable {c : Char} (h : isIgnorable c = true) (cs : List Char) :
    Source.tokens (c :: cs) = Source.tokens cs := by
  rw [Source.tokens, Source.lexemes_blank h]
  rfl

theorem tokens_comment (p : Position) (cs : List Char) :
    Source.tokens ('#' :: cs) = Source.tokens (afterComment p cs).2 := by
  have hrest : Source.tokens ('#' :: cs) = Source.tokens (Source.splitComment cs).2 := by
    rw [Source.tokens, Source.lexemes, Source.splitLexeme_hash]
    rfl
  obtain he | ⟨c, hc, he⟩ := afterComment_eq p cs
  · rw [hrest, he]
  · rw [hrest, he, tokens_ignorable hc]

/-- If the lenient cut finds only whole strings, there is no bare carriage return. -/
theorem not_hasBareReturn_of_complete {room : Nat} {p : Position} {cs : List Char}
    (h : (scanFrom room p cs).complete = true)
    (hs : ∀ t ∈ Source.tokens cs, t.kind = .string → ∃ g : Token, g.IsExact ∧ g.toSource = t) :
    ∀ t ∈ (scanFrom room p cs).items.map Prod.fst, ¬ t.HasBareReturn := by
  fun_induction scanFrom room p cs with
  | case1 => simp [Scan.ended]
  | case2 room p c cs hi ih =>
    rw [tokens_ignorable hi] at hs
    exact ih h hs
  | case3 room p cs hi ih =>
    rw [tokens_comment p cs] at hs
    exact ih h hs
  | case4 => contradiction
  | case5 => contradiction
  | case6 room p c cs hi hc t rest hsplit left hroom ih =>
    have htokens : Source.tokens (c :: cs) = (Source.splitLexeme c cs).1.token?.toList ++
        Source.tokens (Source.splitLexeme c cs).2 := by
      rw [Source.tokens, Source.lexemes, List.filterMap_cons]
      cases (Source.splitLexeme c cs).1.token? <;> rfl
    have hfree : ¬ t.HasBareReturn := by
      refine not_hasBareReturn_of_splitToken? hsplit fun u hu => hs u ?_
      rw [htokens, hu]
      exact List.mem_cons_self
    rw [(splitLexeme_eq_iff hsplit).mpr hfree] at htokens
    rw [Scan.cons, List.map_cons, List.forall_mem_cons]
    refine ⟨hfree, ih h fun u hu => hs u ?_⟩
    rw [htokens]
    exact List.mem_append_right _ hu

/-! ## Tokens as terminals -/

/-- A float of the grammar: a whole part, a fraction or an exponent or both, and at least one
digit in each. -/
def IsFloatText (text : List Char) : Prop :=
  ∃ n : Source.NumberText, n.text = text ∧ n.kind = .float ∧ IsWhole n.whole ∧
    (n.fraction = [] ∨ ∃ ds, n.fraction = '.' :: ds ∧ isFraction ds = true) ∧
    (n.exponent = [] ∨ ∃ c sign ds, n.exponent = c :: (sign ++ ds) ∧ isExponentMark c = true ∧
      (sign = [] ∨ sign = ['+'] ∨ sign = ['-']) ∧ isFraction ds = true)

/-- The integer that a text stands for; zero if it does not fit into 64 bits. -/
def intContent (text : List Char) : Int64 := (readInt? text).getD 0

/-- The float that a text stands for; zero if it cannot be read. -/
def floatContent (text : List Char) : Binary64 :=
  Binary64.ofDecimal ((Decimal.read? text).getD ⟨false, 0, 0⟩)

/-- A token of a text as a terminal of the grammar: as the parser reads it, or any integer
and any float, whatever their size. -/
inductive Reads : Source.Token → Terminal → Prop where
  | token (h : t.IsExact) (hu : Token.terminal? t = some u) : Reads t.toSource u
  | int (h : IsWhole text) : Reads ⟨.int, text⟩ (.int (intContent text))
  | float (h : IsFloatText text) : Reads ⟨.float, text⟩ (.float (floatContent text))

/-- What the parser makes of a token, by its kind. -/
theorem terminal?_eq_some {t : Token} {u : Terminal} (h : t.terminal? = some u) :
    t.kind.toSource = u.kind ∧
      (t.kind = .name → u = .name (String.ofList t.text)) ∧
      (t.kind = .int → u = .int (intContent t.text)) ∧
      (t.kind = .float → u = .float (floatContent t.text)) := by
  obtain ⟨kind, text⟩ := t
  unfold Token.terminal? at h
  cases kind with
  | punctuator mark =>
    cases h
    exact ⟨rfl, by simp, by simp, by simp⟩
  | spread =>
    cases h
    exact ⟨rfl, by simp, by simp, by simp⟩
  | name =>
    cases h
    exact ⟨rfl, fun _ => rfl, by simp, by simp⟩
  | int =>
    obtain ⟨n, hn, rfl⟩ := Option.map_eq_some_iff.mp h
    exact ⟨rfl, by simp, fun _ => by simp [intContent, hn], by simp⟩
  | float =>
    obtain ⟨d, hd, rfl⟩ := Option.map_eq_some_iff.mp h
    exact ⟨rfl, by simp, by simp, fun _ => by simp [floatContent, hd]⟩
  | string =>
    obtain ⟨s, hs, rfl⟩ := Option.map_eq_some_iff.mp h
    exact ⟨rfl, by simp, by simp, by simp⟩
  | blockString =>
    cases h
    exact ⟨rfl, by simp, by simp, by simp⟩

theorem Reads.kind_eq {s : Source.Token} {u : Terminal} (h : Reads s u) : s.kind = u.kind := by
  cases h with
  | token _ hu => exact (terminal?_eq_some hu).1
  | int _ => rfl
  | float _ => rfl

theorem toSource_eq_int {k : TokenKind} (h : k.toSource = .int) : k = .int := by
  cases k <;> first | rfl | contradiction

theorem toSource_eq_float {k : TokenKind} (h : k.toSource = .float) : k = .float := by
  cases k <;> first | rfl | contradiction

theorem toSource_eq_name {k : TokenKind} (h : k.toSource = .name) : k = .name := by
  cases k <;> first | rfl | contradiction

/-- A token is read as one terminal only. -/
theorem Reads.unique {s : Source.Token} {u v : Terminal} (hu : Reads s u) (hv : Reads s v) :
    u = v := by
  cases hu with
  | @token t u ht hu =>
    generalize hs : t.toSource = s at hv
    cases hv with
    | @token t' v ht' hv =>
      obtain rfl := ht.eq ht' (congrArg Source.Token.text hs)
      rw [hu] at hv
      exact Option.some.inj hv
    | @int text h =>
      have hk := toSource_eq_int (congrArg Source.Token.kind hs)
      rw [(terminal?_eq_some hu).2.2.1 hk, show t.text = text from congrArg Source.Token.text hs]
    | @float text h =>
      have hk := toSource_eq_float (congrArg Source.Token.kind hs)
      rw [(terminal?_eq_some hu).2.2.2 hk, show t.text = text from congrArg Source.Token.text hs]
  | @int text h =>
    generalize hs : Source.Token.mk .int text = s at hv
    cases hv with
    | @token t' v ht' hv =>
      have hk := toSource_eq_int (congrArg Source.Token.kind hs).symm
      rw [(terminal?_eq_some hv).2.2.1 hk, show text = t'.text from congrArg Source.Token.text hs]
    | int h =>
      cases hs
      rfl
    | float h => cases hs
  | @float text h =>
    generalize hs : Source.Token.mk .float text = s at hv
    cases hv with
    | @token t' v ht' hv =>
      have hk := toSource_eq_float (congrArg Source.Token.kind hs).symm
      rw [(terminal?_eq_some hv).2.2.2 hk, show text = t'.text from congrArg Source.Token.text hs]
    | int h => cases hs
    | float h =>
      cases hs
      rfl

/-- Only a name is read as a name. -/
theorem Reads.eq_name {s : Source.Token} {name : String} (h : Reads s (.name name)) :
    s = ⟨.name, name.toList⟩ := by
  generalize hu : Terminal.name name = u at h
  cases h with
  | @token t u _ ht =>
    subst hu
    obtain ⟨hkind, hname, -⟩ := terminal?_eq_some ht
    have hk := toSource_eq_name hkind
    have he : name = String.ofList t.text := by simpa using hname hk
    rw [he, Token.toSource, hkind]
    simp [Terminal.kind]
  | int _ => contradiction
  | float _ => contradiction

/-- A name is read as nothing else. -/
theorem Reads.name_eq {name : List Char} {u : Terminal} (h : Reads ⟨.name, name⟩ u) :
    u = .name (String.ofList name) := by
  generalize hs : Source.Token.mk .name name = s at h
  cases h with
  | @token t u _ ht =>
    have hk := toSource_eq_name (congrArg Source.Token.kind hs).symm
    have htext : name = t.text := congrArg Source.Token.text hs
    rw [htext]
    exact (terminal?_eq_some ht).2.1 hk
  | int _ => cases hs
  | float _ => cases hs

theorem reads_name {name : List Char} (h : isName name = true) :
    Reads ⟨.name, name⟩ (.name (String.ofList name)) :=
  .token (t := ⟨.name, name⟩) (isExact_name h) rfl

/-- Whether a row of tokens makes up a document of the grammar. -/
def Derives (ts : List Source.Token) : Prop :=
  ∃ document : Document, document.WellFormed ∧ List.Forall₂ Reads ts document.terminals

/-! ## Parsed texts -/

theorem complete_go {f : α → Option β} {s : Scan α} {items : List (α × Position)}
    (h : (Scan.mapWhile.go f s items).complete = true) :
    s.complete = true ∧ List.Forall₂ (fun a b => f a = some b) (items.map Prod.fst)
      ((Scan.mapWhile.go f s items).items.map Prod.fst) := by
  induction items with
  | nil => exact ⟨h, .nil⟩
  | cons item items ih =>
    obtain ⟨a, place⟩ := item
    unfold Scan.mapWhile.go at h ⊢
    cases hf : f a with
    | none => simp [hf, Scan.ended] at h
    | some b =>
      simp only [hf, Scan.cons] at h ⊢
      obtain ⟨hc, hitems⟩ := ih h
      exact ⟨hc, .cons hf hitems⟩

/-- All of a scan has been read further if it has come to its end. -/
theorem complete_mapWhile {f : α → Option β} {s : Scan α} (h : (s.mapWhile f).complete = true) :
    s.complete = true ∧ List.Forall₂ (fun a b => f a = some b) (s.items.map Prod.fst)
      ((s.mapWhile f).items.map Prod.fst) := complete_go h

/-- What it means that a text has been parsed. -/
theorem exists_of_parse {text : List Char} {document : Document}
    (h : parse text = .ok document) :
    document.WellFormed ∧ (scan text).complete = true ∧
      List.Forall₂ (fun t u => Token.terminal? t = some u) ((scan text).items.map Prod.fst)
        document.terminals := by
  unfold parse at h
  simp only at h
  split at h
  · contradiction
  · next hread =>
    split at h
    · next hcomplete =>
      cases h
      obtain ⟨hwf, hterminals⟩ := (Parser.document_eq_ok_iff _ _).mp hread
      obtain ⟨hscan, hitems⟩ := complete_mapWhile hcomplete
      rw [hterminals]
      exact ⟨hwf, hscan, hitems⟩
    · contradiction

theorem forall₂_reads {ts : List Token} {us : List Terminal} (ht : ∀ t ∈ ts, t.IsExact)
    (h : List.Forall₂ (fun t u => Token.terminal? t = some u) ts us) :
    List.Forall₂ Reads (ts.map Token.toSource) us := by
  induction h with
  | nil => exact .nil
  | cons htu _ ih =>
    obtain ⟨hexact, hrest⟩ := List.forall_mem_cons.mp ht
    exact .cons (.token hexact htu) (ih hrest)

/-- The tokens that the parser has seen are read as the terminals of its document. -/
theorem forall₂_reads_of_parse {text : List Char} {document : Document}
    (h : parse text = .ok document) :
    List.Forall₂ Reads (((scan text).items.map Prod.fst).map Token.toSource)
      document.terminals :=
  forall₂_reads (fun _ ht => isExact_of_mem_scanFrom ht) (exists_of_parse h).2.2

/-- Where all tokens of a text can be read, the grammar derives them exactly if the text can
be parsed. -/
theorem derives_iff_of_complete {text : List Char} (h : (terminals text).complete = true) :
    Derives (((scan text).items.map Prod.fst).map Token.toSource) ↔
      ∃ document, parse text = .ok document := by
  obtain ⟨-, hitems⟩ := complete_mapWhile h
  have hreads := forall₂_reads (fun _ ht => isExact_of_mem_scanFrom ht) hitems
  constructor
  · rintro ⟨document, hwf, hderived⟩
    have hunique : Relator.RightUnique Reads := fun _ _ _ => Reads.unique
    have hsame := List.right_unique_forall₂' hunique hreads hderived
    have hparsed := (Parser.document_eq_ok_iff _ _).mpr ⟨hwf, hsame.symm⟩
    refine ⟨document, ?_⟩
    simp only [parse, terminals] at h ⊢
    rw [hparsed]
    simp only [h, if_true]
  · rintro ⟨document, hparse⟩
    exact ⟨document, (exists_of_parse hparse).1, forall₂_reads_of_parse hparse⟩

end QueryDoc.Grammar
