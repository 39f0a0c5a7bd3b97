import OnnxruntimeServer.JsonNumbers

namespace OnnxruntimeServer
set_option autoImplicit true

namespace Lexer

variable {P : Lexer → Prop} {lx : Lexer} {strtod : Bytes → Double}

theorem keeps_scanStringFrom (k : Keeps P) (h : P lx) : P lx.scanStringFrom.2 := by
  induction hn : lx.rest.length using Nat.strong_induction_on generalizing lx with
  | _ n ih =>
    subst hn
    have hget := k.get lx h
    cases hc : lx.get.current with
    | none =>
      rw [scanStringFrom_none hc]
      exact hget
    | some b =>
      have hlt := length_get_lt hc
      rw [scanStringFrom_some hc]
      split_ifs
      · exact hget
      · have hescape := keeps_scanEscape k hget
        have hle := keeps_scanEscape (keeps_length lx.get.rest.length) le_rfl
        rcases hr : lx.get.scanEscape with ⟨_ | e, lx'⟩ <;> rw [hr] at hescape hle
        · exact ih _ (hle.trans_lt hlt) hescape rfl
        · exact hescape
      · exact hget
      · exact ih _ hlt (k.add _ _ hget) rfl
      · cases byteRanges b with
        | none => exact hget
        | some ranges =>
          dsimp only
          have hnext := keeps_nextByteInRangeFrom k (k.add _ lx.get.current.toList hget) ranges
          have hadd : (lx.get.add lx.get.current.toList).rest.length ≤ lx.get.rest.length := le_rfl
          have hle := keeps_nextByteInRangeFrom (keeps_length lx.get.rest.length) hadd ranges
          rcases hr : lx.get.nextByteInRange ranges with ⟨_ | _, lx'⟩ <;>
            rw [nextByteInRange] at hr <;> rw [hr] at hnext hle
          · exact hnext
          · exact ih _ (hle.trans_lt hlt) hnext rfl

theorem keeps_scanNumberFrom (k : Keeps P) (h : P lx) (label : NumberState)
    (number_type : NumberType) : P (lx.scanNumberFrom strtod label number_type).2 := by
  induction hn : lx.rest.length using Nat.strong_induction_on
    generalizing lx label number_type with
  | _ n ih =>
    subst hn
    rcases hc : label.next lx.get.current with e | _ | label'
    · rw [scanNumberFrom_error hc]
      exact k.get lx h
    · rw [scanNumberFrom_done hc]
      exact k.unget lx h
    · rw [scanNumberFrom_step hc]
      cases hcurrent : lx.get.current with
      | none =>
        rw [hcurrent] at hc
        exact absurd hc (NumberState.next_none label)
      | some b => exact ih _ (length_get_lt hcurrent) (k.add _ _ (k.get lx h)) _ _ rfl

theorem keeps_scanNumber (k : Keeps P) (h : P lx) : P (lx.scanNumber strtod).2 := by
  have hfirst := k.add _ lx.current.toList (k.reset lx h)
  rw [scanNumber]
  split_ifs <;> exact keeps_scanNumberFrom k hfirst _ _

theorem keeps_scanLiteral (k : Keeps P) (h : P lx) (token : Token) (literal_text : Bytes) :
    P (lx.scanLiteral token literal_text).2 := by
  induction literal_text generalizing lx with
  | nil => exact h
  | cons c literal_text ih =>
    rw [scanLiteral]
    split_ifs
    · exact ih (k.get lx h)
    · exact k.get lx h

theorem keeps_skipWhitespace (k : Keeps P) (h : P lx.get) : P lx.skipWhitespace := by
  induction lx using skipWhitespace.induct with
  | case1 lx hc ih =>
    rw [skipWhitespace, dif_pos hc]
    exact ih (k.get _ h)
  | case2 lx hc =>
    rw [skipWhitespace, dif_neg hc]
    exact h

theorem keeps_scanFirst (k : Keeps P) (h : P lx) (b : UInt8) : P (lx.scanFirst strtod b).2 := by
  rw [scanFirst]
  cases structural b with
  | some token => exact h
  | none =>
    cases literal b with
    | some entry => exact keeps_scanLiteral k h _ _
    | none =>
      dsimp only
      split_ifs
      · exact keeps_scanStringFrom k (k.reset _ h)
      · exact keeps_scanNumber k h
      · exact h
      · exact h

theorem keeps_scanToken (k : Keeps P) (h : P lx.get) : P (lx.scanToken strtod).2 := by
  have hskip := keeps_skipWhitespace k h
  rw [scanToken]
  cases lx.skipWhitespace.current with
  | none => exact hskip
  | some b => exact keeps_scanFirst k hskip b

theorem keeps_read (n : Nat) : Keeps fun lx => n ≤ lx.position.chars_read_total where
  get lx h := Nat.le_succ_of_le h
  unget lx h := h
  add lx bytes h := h
  reset lx h := h

theorem read_scanToken (strtod : Bytes → Double) (lx : Lexer) :
    0 < (lx.scanToken strtod).2.position.chars_read_total :=
  keeps_scanToken (keeps_read 1) (Nat.succ_le_succ (Nat.zero_le _))

theorem skipWhitespace_eq (lx : Lexer) :
    lx.skipWhitespace.current = (lx.rest.dropWhile isWhitespace).head? ∧
      lx.skipWhitespace.rest = (lx.rest.dropWhile isWhitespace).tail := by
  induction lx using skipWhitespace.induct with
  | case1 lx hc ih =>
    cases hcurrent : lx.get.current with
    | none => simp [hcurrent] at hc
    | some b =>
      rw [hcurrent, Option.any_some] at hc
      rw [skipWhitespace, hcurrent, Option.any_some, dif_pos hc, rest_of_get hcurrent,
        List.dropWhile_cons_of_pos hc]
      exact ih
  | case2 lx hc =>
    rw [skipWhitespace, dif_neg hc, current_get, rest_get]
    cases hrest : lx.rest with
    | nil => exact ⟨rfl, rfl⟩
    | cons b more =>
      rw [current_get, hrest, List.head?_cons, Option.any_some] at hc
      rw [List.dropWhile_cons_of_neg hc]
      exact ⟨rfl, rfl⟩

end Lexer

def Blank (ws : Bytes) : Prop := ∀ b ∈ ws, Lexer.isWhitespace b = true

/-- How the tokens of JSON are spelled. -/
inductive Lexeme (strtod : Bytes → Double) : Token → Bytes → Prop where
  | beginArray : Lexeme strtod .beginArray [0x5B]
  | endArray : Lexeme strtod .endArray [0x5D]
  | beginObject : Lexeme strtod .beginObject [0x7B]
  | endObject : Lexeme strtod .endObject [0x7D]
  | nameSeparator : Lexeme strtod .nameSeparator [0x3A]
  | valueSeparator : Lexeme strtod .valueSeparator [0x2C]
  | literalTrue : Lexeme strtod .literalTrue (0x74 :: ascii "rue")
  | literalFalse : Lexeme strtod .literalFalse (0x66 :: ascii "alse")
  | literalNull : Lexeme strtod .literalNull (0x6E :: ascii "ull")
  | valueString (h : StringText cs text) :
    Lexeme strtod (.valueString (utf8 cs)) (0x22 :: (text ++ [0x22]))
  | number (h : NumberText number_type text) :
    Lexeme strtod (numberToken strtod number_type text) text

/-- What can stand after the last token: nothing, or a NUL and anything. -/
def Ends (tail : Bytes) : Prop := tail = [] ∨ ∃ more, tail = 0x00 :: more

def Token.isNumber : Token → Bool
  | .valueUnsigned _ | .valueInteger _ | .valueFloat _ => true
  | _ => false

/-- The tokens after which the parser calls `scan` no more. -/
def Token.isLast : Token → Bool
  | .endOfInput | .parseError _ => true
  | _ => false

theorem isNumber_numberToken (strtod : Bytes → Double) (number_type : NumberType) (text : Bytes) :
    (numberToken strtod number_type text).isNumber = true := by
  cases number_type with
  | unsigned =>
    rw [numberToken]
    cases strtoull text <;> rfl
  | integer =>
    rw [numberToken]
    cases stoll text <;> rfl
  | float => rfl

theorem isLast_of_isNumber {t : Token} (h : t.isNumber = true) : t.isLast = false := by
  cases t <;> first | rfl | cases h

theorem Lexeme.isLast_eq (h : Lexeme strtod t text) : t.isLast = false := by
  cases h with
  | number h => exact isLast_of_isNumber (isNumber_numberToken strtod _ _)
  | _ => rfl

theorem number_first : ∀ n : Fin 256,
    (UInt8.ofNat n = 0x2D ∨ isDigit (.ofNat n) = true) →
      Lexer.isWhitespace (.ofNat n) = false ∧ UInt8.ofNat n ≠ 0xEF ∧ UInt8.ofNat n ≠ 0x22 ∧
        (Lexer.structural (.ofNat n)).isNone = true ∧ (Lexer.literal (.ofNat n)).isNone = true := by
  decide +kernel

theorem Lexeme.head (h : Lexeme strtod t text) :
    ∃ b more, text = b :: more ∧ Lexer.isWhitespace b = false ∧ b ≠ 0xEF := by
  cases h with
  | number h =>
    obtain ⟨b, more, rfl, hb⟩ := numberText_head h
    have hfirst := number_first ⟨b.toNat, b.toNat_lt⟩
    rw [UInt8.ofNat_toNat] at hfirst
    obtain ⟨hw, hbom, _⟩ := hfirst hb
    exact ⟨b, more, rfl, hw, hbom⟩
  | _ => exact ⟨_, _, rfl, rfl, by decide⟩

namespace Lexer

variable {lx : Lexer} {strtod : Bytes → Double}

theorem scanLiteral_text (h : lx.rest = literal_text ++ more) (token : Token) :
    ∃ lx', lx.scanLiteral token literal_text = (token, lx') ∧ lx'.rest = more := by
  induction literal_text generalizing lx with
  | nil => exact ⟨lx, rfl, h⟩
  | cons c literal_text ih =>
    obtain ⟨hcurrent, hrest⟩ := get_of_rest h
    rw [scanLiteral, if_pos hcurrent]
    exact ih hrest

theorem text_of_scanLiteral (h : lx.scanLiteral token literal_text = (t, lx'))
    (ht : ∀ e, t ≠ .parseError e) : t = token ∧ lx.rest = literal_text ++ lx'.rest := by
  induction literal_text generalizing lx with
  | nil =>
    obtain ⟨rfl, rfl⟩ := Prod.mk.inj h
    exact ⟨rfl, rfl⟩
  | cons c literal_text ih =>
    rw [scanLiteral] at h
    split_ifs at h with hc
    · obtain ⟨heq, hrest⟩ := ih h
      exact ⟨heq, by rw [rest_of_get hc, hrest, List.cons_append]⟩
    · exact absurd (Prod.mk.inj h).1.symm (ht _)

theorem scanFirst_structural (h : structural b = some token) :
    lx.scanFirst strtod b = (token, lx) := by
  rw [scanFirst, h]

theorem scanFirst_literal (hs : (structural b).isNone = true)
    (h : literal b = some (token, literal_text)) :
    lx.scanFirst strtod b = lx.scanLiteral token literal_text := by
  rw [scanFirst, Option.isNone_iff_eq_none.1 hs, h]

theorem scanFirst_lexeme (h : Lexeme strtod t spelling) (hb : spelling = b :: text)
    (hc : lx.current = some b) (hr : lx.rest = text ++ more)
    (hs : t.isNumber = true → Stops more) :
    ∃ lx', lx.scanFirst strtod b = (t, lx') ∧ lx'.rest = more := by
  cases h with
  | valueString h =>
    obtain ⟨rfl, rfl⟩ := List.cons.inj hb
    rw [List.append_assoc] at hr
    rw [← lx.rest_reset] at hr
    exact scanStringFrom_text h hr
  | number h =>
    subst hb
    obtain ⟨b', more', hcons, hfirst⟩ := numberText_head h
    obtain ⟨rfl, rfl⟩ := List.cons.inj hcons
    have hnone := number_first ⟨b.toNat, b.toNat_lt⟩
    rw [UInt8.ofNat_toNat] at hnone
    obtain ⟨_, _, hquote, hstructural, hliteral⟩ := hnone hfirst
    rw [scanFirst, Option.isNone_iff_eq_none.1 hstructural, Option.isNone_iff_eq_none.1 hliteral]
    dsimp only
    rw [if_neg hquote, if_pos hfirst]
    exact scanNumber_text hc h hr (hs (isNumber_numberToken strtod _ _))
  | literalTrue =>
    obtain ⟨rfl, rfl⟩ := List.cons.inj hb
    rw [scanFirst_literal rfl rfl]
    exact scanLiteral_text hr _
  | literalFalse =>
    obtain ⟨rfl, rfl⟩ := List.cons.inj hb
    rw [scanFirst_literal rfl rfl]
    exact scanLiteral_text hr _
  | literalNull =>
    obtain ⟨rfl, rfl⟩ := List.cons.inj hb
    rw [scanFirst_literal rfl rfl]
    exact scanLiteral_text hr _
  | _ =>
    obtain ⟨rfl, rfl⟩ := List.cons.inj hb
    exact ⟨lx, scanFirst_structural rfl, hr⟩

theorem structural_lexeme (strtod : Bytes → Double) (h : structural b = some token) :
    Lexeme strtod token [b] := by
  rw [structural] at h
  split_ifs at h with h5B h5D h7B h7D h3A h2C
  all_goals obtain rfl := Option.some.inj h
  · rw [h5B]
    exact .beginArray
  · rw [h5D]
    exact .endArray
  · rw [h7B]
    exact .beginObject
  · rw [h7D]
    exact .endObject
  · rw [h3A]
    exact .nameSeparator
  · rw [h2C]
    exact .valueSeparator

theorem literal_lexeme (strtod : Bytes → Double) (h : literal b = some (token, literal_text)) :
    Lexeme strtod token (b :: literal_text) := by
  rw [literal] at h
  split_ifs at h with h74 h66 h6E
  all_goals obtain ⟨rfl, rfl⟩ := Prod.mk.inj (Option.some.inj h)
  · rw [h74]
    exact .literalTrue
  · rw [h66]
    exact .literalFalse
  · rw [h6E]
    exact .literalNull

theorem lexeme_of_scanFirst (h : lx.scanFirst strtod b = (t, lx')) (hc : lx.current = some b)
    (ht : ∀ e, t ≠ .parseError e) :
    t = .endOfInput ∧ b = 0x00 ∨
      ∃ text, Lexeme strtod t (b :: text) ∧ lx.rest = text ++ lx'.rest := by
  rw [scanFirst] at h
  cases hs : structural b with
  | some token =>
    rw [hs] at h
    obtain ⟨rfl, rfl⟩ := Prod.mk.inj h
    exact .inr ⟨[], structural_lexeme strtod hs, rfl⟩
  | none =>
    rw [hs] at h
    cases hl : literal b with
    | some entry =>
      obtain ⟨token, literal_text⟩ := entry
      rw [hl] at h
      obtain ⟨rfl, hrest⟩ := text_of_scanLiteral h ht
      exact .inr ⟨literal_text, literal_lexeme strtod hl, hrest⟩
    | none =>
      rw [hl] at h
      dsimp only at h
      split_ifs at h with hquote hnumber hzero
      · obtain ⟨cs, text, htext, hrest, rfl⟩ := text_of_scanStringFrom h ht
        refine .inr ⟨text ++ [0x22], ?_, ?_⟩
        · rw [hquote]
          exact .valueString htext
        · rw [← lx.rest_reset, hrest, List.append_assoc]
          rfl
      · obtain ⟨text, final, hn, hrest, rfl⟩ := text_of_scanNumber hc hnumber h ht
        exact .inr ⟨text, .number hn, hrest⟩
      · exact .inl ⟨(Prod.mk.inj h).1.symm, hzero⟩
      · exact absurd (Prod.mk.inj h).1.symm (ht _)

theorem rest_skipWhitespace (hw : Blank ws) (hr : lx.rest = ws ++ more)
    (hm : ∀ b, more.head? = some b → isWhitespace b = false) :
    lx.skipWhitespace.current = more.head? ∧ lx.skipWhitespace.rest = more.tail := by
  have hdrop : lx.rest.dropWhile isWhitespace = more := by
    rw [hr, List.dropWhile_append_of_pos hw]
    cases more with
    | nil => rfl
    | cons b more => rw [List.dropWhile_cons_of_neg (by simp [hm b rfl])]
  have hskip := lx.skipWhitespace_eq
  rwa [hdrop] at hskip

theorem scanToken_lexeme (h : Lexeme strtod t text) (hw : Blank ws)
    (hr : lx.rest = ws ++ (text ++ more)) (hs : t.isNumber = true → Stops more) :
    ∃ lx', lx.scanToken strtod = (t, lx') ∧ lx'.rest = more := by
  obtain ⟨b, text, rfl, hb, _⟩ := h.head
  obtain ⟨hcurrent, hrest⟩ := rest_skipWhitespace hw hr (by simpa using hb)
  rw [scanToken, hcurrent]
  exact scanFirst_lexeme h rfl hcurrent hrest hs

theorem scanToken_end (strtod : Bytes → Double) (hw : Blank ws) (hr : lx.rest = ws ++ tail)
    (ht : Ends tail) :
    ∃ lx', lx.scanToken strtod = (.endOfInput, lx') := by
  rcases ht with rfl | ⟨more, rfl⟩
  · obtain ⟨hcurrent, _⟩ := rest_skipWhitespace hw hr (by simp)
    rw [scanToken, hcurrent]
    exact ⟨_, rfl⟩
  · obtain ⟨hcurrent, _⟩ := rest_skipWhitespace hw hr (by simp; rfl)
    rw [scanToken, hcurrent]
    exact ⟨_, rfl⟩

theorem skipWhitespace_split (lx : Lexer) :
    ∃ ws, Blank ws ∧ lx.rest = ws ++ lx.rest.dropWhile isWhitespace := by
  refine ⟨lx.rest.takeWhile isWhitespace, ?_, List.takeWhile_append_dropWhile.symm⟩
  intro b hb
  exact List.mem_takeWhile_imp hb

theorem lexeme_of_scanToken (h : lx.scanToken strtod = (t, lx'))
    (ht : ∀ e, t ≠ .parseError e) :
    (∃ ws tail, t = .endOfInput ∧ Blank ws ∧ lx.rest = ws ++ tail ∧ Ends tail) ∨
      ∃ ws text, Blank ws ∧ Lexeme strtod t text ∧ lx.rest = ws ++ (text ++ lx'.rest) := by
  obtain ⟨ws, hw, hsplit⟩ := lx.skipWhitespace_split
  obtain ⟨hcurrent, hrest⟩ := lx.skipWhitespace_eq
  rw [scanToken] at h
  cases hdrop : lx.rest.dropWhile isWhitespace with
  | nil =>
    rw [hdrop] at hsplit hcurrent
    rw [hcurrent] at h
    exact .inl ⟨ws, [], (Prod.mk.inj h).1.symm, hw, hsplit, .inl rfl⟩
  | cons b more =>
    rw [hdrop] at hcurrent hrest hsplit
    rw [hcurrent] at h
    rcases lexeme_of_scanFirst h hcurrent ht with ⟨htoken, rfl⟩ | ⟨text, htext, hmore⟩
    · exact .inl ⟨ws, _, htoken, hw, hsplit, .inr ⟨more, rfl⟩⟩
    · refine .inr ⟨ws, b :: text, hw, htext, ?_⟩
      rw [hsplit, List.cons_append, ← hmore, hrest]
      rfl

theorem skipBom_of_rest (h : lx.rest.head? ≠ some 0xEF) : lx.skipBom = (true, lx.get.unget) := by
  rw [skipBom, current_get, if_neg h]

theorem skipBom_bom (h : lx.rest = [0xEF, 0xBB, 0xBF] ++ more) :
    ∃ lx', lx.skipBom = (true, lx') ∧ lx'.rest = more := by
  obtain ⟨hcurrent, hrest⟩ := get_of_rest h
  obtain ⟨hcurrent₂, hrest₂⟩ := get_of_rest hrest
  obtain ⟨hcurrent₃, hrest₃⟩ := get_of_rest hrest₂
  rw [skipBom, if_pos hcurrent, if_pos hcurrent₂, hcurrent₃]
  exact ⟨_, rfl, hrest₃⟩

theorem rest_of_skipBom (h : lx.skipBom = (true, lx')) :
    ∃ bom, (bom = [] ∨ bom = [0xEF, 0xBB, 0xBF]) ∧ lx.rest = bom ++ lx'.rest := by
  rw [skipBom] at h
  split_ifs at h with hEF hBB
  · obtain ⟨hBF, rfl⟩ := Prod.mk.inj h
    refine ⟨_, .inr rfl, ?_⟩
    rw [rest_of_get hEF, rest_of_get hBB, rest_of_get (beq_iff_eq.1 hBF)]
    rfl
  · obtain ⟨hfalse, _⟩ := Prod.mk.inj h
    cases hfalse
  · obtain ⟨_, rfl⟩ := Prod.mk.inj h
    exact ⟨[], .inl rfl, lx.rest_unget_get.symm⟩

theorem scan_started (h : 0 < lx.position.chars_read_total) : lx.scan strtod = lx.scanToken strtod :=
  if_neg (Nat.ne_of_gt h)

theorem scan_ofText (h : (ofText body).skipBom = (true, lx')) :
    (ofText body).scan strtod = lx'.scanToken strtod := by
  have hstart : (ofText body).position.chars_read_total = 0 := rfl
  rw [scan, if_pos hstart, h]

theorem scan_eq (strtod : Bytes → Double) (lx : Lexer) :
    (∃ lx', lx.scan strtod = (.parseError .bom, lx')) ∨
      ∃ (lx' : Lexer) (bom : Bytes), lx.scan strtod = lx'.scanToken strtod ∧
        (bom = [] ∨ bom = [0xEF, 0xBB, 0xBF]) ∧ lx.rest = bom ++ lx'.rest := by
  rw [scan]
  split_ifs
  · rcases hskip : lx.skipBom with ⟨_ | _, lx'⟩
    · exact .inl ⟨lx', rfl⟩
    · obtain ⟨bom, hbom, hrest⟩ := rest_of_skipBom hskip
      exact .inr ⟨lx', bom, rfl, hbom, hrest⟩
  · exact .inr ⟨lx, [], rfl, .inl rfl, rfl⟩

theorem length_scan_lt (h : (lx.scan strtod).1.isLast = false) :
    (lx.scan strtod).2.rest.length < lx.rest.length := by
  rcases scan_eq strtod lx with ⟨lx', hscan⟩ | ⟨lx', bom, hscan, _, hrest⟩
  · rw [hscan] at h
    cases h
  · rw [hscan] at h ⊢
    have herror : ∀ e, (lx'.scanToken strtod).1 ≠ .parseError e := by
      intro e he
      rw [he] at h
      cases h
    rcases lexeme_of_scanToken (Prod.eta _).symm herror with ⟨_, _, hend, _⟩ | ⟨ws, text, _, ht, hr⟩
    · rw [hend] at h
      cases h
    · obtain ⟨b, more, rfl, _⟩ := ht.head
      rw [hrest, hr]
      simp only [List.length_append, List.length_cons]
      omega

/-- What the successive calls of `scan` return, up to the one that reads no token. -/
def tokens (strtod : Bytes → Double) (lx : Lexer) : List (Token × Lexer) :=
  if h : (lx.scan strtod).1.isLast = true then [lx.scan strtod]
  else lx.scan strtod :: (lx.scan strtod).2.tokens strtod
termination_by lx.rest.length
decreasing_by exact length_scan_lt (by simpa using h)

theorem tokens_last (h : (lx.scan strtod).1.isLast = true) :
    lx.tokens strtod = [lx.scan strtod] := by
  rw [tokens, dif_pos h]

theorem tokens_next (h : (lx.scan strtod).1.isLast = false) :
    lx.tokens strtod = lx.scan strtod :: (lx.scan strtod).2.tokens strtod := by
  rw [tokens, dif_neg (by simp [h])]

end Lexer

/-- Tokens in a text, with whitespace around them. -/
inductive Spelled (strtod : Bytes → Double) : List Token → Bytes → Prop where
  | nil (hw : Blank ws) : Spelled strtod [] ws
  | cons (hw : Blank ws) (ht : Lexeme strtod t text) (h : Spelled strtod ts more) :
    Spelled strtod (t :: ts) (ws ++ (text ++ more))

/-- No number follows another one, so each ends where its text does. -/
def Separated (ts : List Token) : Prop :=
  ts.IsChain fun t t' => t.isNumber = true → t'.isNumber = false

theorem blank_first : ∀ n : Fin 256, Lexer.isWhitespace (.ofNat n) = true ∨ n.val = 0 →
    isDigit (.ofNat n) = false ∧ UInt8.ofNat n ≠ 0x2E ∧ UInt8.ofNat n ≠ 0x65 ∧
      UInt8.ofNat n ≠ 0x45 := by
  decide +kernel

theorem stops_blank (h : Lexer.isWhitespace b = true ∨ b = 0x00) : Stops (b :: more) := by
  intro b' hb
  obtain rfl := Option.some.inj hb
  have hfirst := blank_first ⟨b.toNat, b.toNat_lt⟩
  rw [UInt8.ofNat_toNat] at hfirst
  apply hfirst
  exact h.imp_right fun h => by rw [h]; rfl

theorem Lexeme.stops (h : Lexeme strtod t text) (hn : t.isNumber = false) (more : Bytes) :
    Stops (text ++ more) := by
  intro b hb
  cases h with
  | number h =>
    rw [isNumber_numberToken] at hn
    cases hn
  | _ =>
    obtain rfl := Option.some.inj hb
    exact ⟨rfl, by decide, by decide, by decide⟩

theorem Spelled.stops (h : Spelled strtod ts text) (hn : ∀ t, ts.head? = some t → t.isNumber = false)
    (ht : Ends tail) : Stops (text ++ tail) := by
  cases h with
  | nil hw =>
    cases text with
    | nil =>
      rcases ht with rfl | ⟨more, rfl⟩
      · intro b hb
        cases hb
      · exact stops_blank (.inr rfl)
    | cons b text => exact stops_blank (.inl (hw b List.mem_cons_self))
  | @cons ws t text ts more hw htext _ =>
    cases ws with
    | nil =>
      rw [List.nil_append, List.append_assoc]
      exact htext.stops (hn t rfl) _
    | cons b ws => exact stops_blank (.inl (hw b List.mem_cons_self))

namespace Lexer

variable {lx lx₁ : Lexer} {strtod : Bytes → Double}

/-- Every text of some tokens is read as these tokens. -/
theorem tokens_of_spelled (h : Spelled strtod ts text) (hsep : Separated ts)
    (hscan : lx.scan strtod = lx₁.scanToken strtod) (hr : lx₁.rest = text ++ tail)
    (ht : Ends tail) : (lx.tokens strtod).map Prod.fst = ts ++ [.endOfInput] := by
  induction h generalizing lx lx₁ with
  | nil hw =>
    obtain ⟨lx', hend⟩ := scanToken_end strtod hw hr ht
    rw [hend] at hscan
    rw [tokens_last (by rw [hscan]; rfl), hscan]
    rfl
  | @cons ws t text ts more hw htext h ih =>
    rw [List.append_assoc, List.append_assoc] at hr
    have hstops : t.isNumber = true → Stops (more ++ tail) := by
      intro hn
      apply h.stops _ ht
      intro t' ht'
      cases ts with
      | nil => cases ht'
      | cons _ ts =>
        obtain rfl := Option.some.inj ht'
        exact (List.isChain_cons_cons.1 hsep).1 hn
    obtain ⟨lx', htoken, hmore⟩ := scanToken_lexeme htext hw hr hstops
    have hread := read_scanToken strtod lx₁
    rw [htoken] at hread hscan
    rw [tokens_next (by rw [hscan]; exact htext.isLast_eq), hscan, List.map_cons,
      ih hsep.tail (scan_started hread) hmore]
    rfl

/-- Where no call of `scan` fails, the tokens were spelled in the text. -/
theorem spelled_of_tokens (h : (lx.tokens strtod).map Prod.fst = ts ++ [.endOfInput])
    (hscan : lx.scan strtod = lx₁.scanToken strtod) :
    ∃ text tail, lx₁.rest = text ++ tail ∧ Spelled strtod ts text ∧ Ends tail := by
  induction ts generalizing lx lx₁ with
  | nil =>
    have hend : (lx.scan strtod).1 = .endOfInput := by
      by_cases hlast : (lx.scan strtod).1.isLast = true
      · rw [tokens_last hlast] at h
        exact (List.cons.inj h).1
      · rw [tokens_next (by simpa using hlast)] at h
        exact (List.cons.inj h).1
    rw [hscan] at hend
    have herror : ∀ e, (lx₁.scanToken strtod).1 ≠ .parseError e := by
      intro e he
      rw [hend] at he
      cases he
    rcases lexeme_of_scanToken (Prod.eta _).symm herror with
      ⟨ws, tail, _, hw, hr, ht⟩ | ⟨ws, text, _, ht, _⟩
    · exact ⟨ws, tail, hr, .nil hw, ht⟩
    · rw [hend] at ht
      cases ht.isLast_eq
  | cons t ts ih =>
    by_cases hlast : (lx.scan strtod).1.isLast = true
    · rw [tokens_last hlast] at h
      obtain ⟨_, hnil⟩ := List.cons.inj h
      cases ts <;> cases hnil
    · have hfalse : (lx.scan strtod).1.isLast = false := by simpa using hlast
      rw [tokens_next hfalse] at h
      obtain ⟨rfl, hrest⟩ := List.cons.inj h
      rw [hscan] at hrest hfalse ⊢
      have herror : ∀ e, (lx₁.scanToken strtod).1 ≠ .parseError e := by
        intro e he
        rw [he] at hfalse
        cases hfalse
      rcases lexeme_of_scanToken (Prod.eta _).symm herror with
        ⟨_, _, hend, _⟩ | ⟨ws, text, hw, htext, hr⟩
      · rw [hend] at hfalse
        cases hfalse
      · obtain ⟨more, tail, hmore, hspelled, ht⟩ :=
          ih hrest (scan_started (read_scanToken strtod lx₁))
        refine ⟨ws ++ (text ++ more), tail, ?_, .cons hw htext hspelled, ht⟩
        rw [hr, hmore, List.append_assoc, List.append_assoc]

theorem head_of_spelled (h : Spelled strtod ts text) (ht : Ends tail) :
    (text ++ tail).head? ≠ some 0xEF := by
  have hblank : ∀ ws more, Blank ws → more.head? ≠ some 0xEF → (ws ++ more).head? ≠ some 0xEF := by
    intro ws more hw hm
    cases ws with
    | nil => exact hm
    | cons b ws =>
      intro hhead
      have hb := hw b List.mem_cons_self
      obtain rfl : b = 0xEF := Option.some.inj hhead
      cases hb
  cases h with
  | nil hw =>
    apply hblank _ _ hw
    rcases ht with rfl | ⟨more, rfl⟩ <;> simp
  | cons hw htext _ =>
    obtain ⟨b, more, rfl, _, hb⟩ := htext.head
    rw [List.append_assoc, List.append_assoc]
    apply hblank _ _ hw
    simpa using hb

/-- The texts that are read as some tokens are those that spell them. A byte order mark may come
first, and a NUL ends them. -/
theorem tokens_iff (strtod : Bytes → Double) (hsep : Separated ts) (body : Bytes) :
    ((ofText body).tokens strtod).map Prod.fst = ts ++ [.endOfInput] ↔
      ∃ bom text tail, body = bom ++ (text ++ tail) ∧ (bom = [] ∨ bom = [0xEF, 0xBB, 0xBF]) ∧
        Spelled strtod ts text ∧ Ends tail := by
  constructor
  · intro h
    rcases scan_eq strtod (ofText body) with ⟨lx', hscan⟩ | ⟨lx', bom, hscan, hbom, hrest⟩
    · rw [tokens_last (by rw [hscan]; rfl), hscan] at h
      cases ts with
      | nil => cases (List.cons.inj h).1
      | cons t ts =>
        have hnil := (List.cons.inj h).2
        simp at hnil
    · obtain ⟨text, tail, hr, hspelled, ht⟩ := spelled_of_tokens h hscan
      rw [hr] at hrest
      exact ⟨bom, text, tail, hrest, hbom, hspelled, ht⟩
  · rintro ⟨bom, text, tail, rfl, hbom, hspelled, ht⟩
    rcases hbom with rfl | rfl
    · have hhead := head_of_spelled hspelled ht
      have hskip : (ofText (text ++ tail)).skipBom = (true, (ofText (text ++ tail)).get.unget) :=
        skipBom_of_rest hhead
      have hrest : (ofText (text ++ tail)).get.unget.rest = text ++ tail := rest_unget_get _
      exact tokens_of_spelled hspelled hsep (scan_ofText hskip) hrest ht
    · have hbytes : (ofText ([0xEF, 0xBB, 0xBF] ++ (text ++ tail))).rest =
          [0xEF, 0xBB, 0xBF] ++ (text ++ tail) := rfl
      obtain ⟨lx', hskip, hrest⟩ := skipBom_bom hbytes
      exact tokens_of_spelled hspelled hsep (scan_ofText hskip) hrest ht

end Lexer

end OnnxruntimeServer
