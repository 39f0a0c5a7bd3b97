import OnnxruntimeServer.JsonLexer
import OnnxruntimeServer.Utf8Text

namespace OnnxruntimeServer
set_option autoImplicit true

def Hex4 (text : Bytes) (v : Nat) : Prop :=
  ∃ a b c d w x y z, text = [a, b, c, d] ∧ Lexer.hexDigit a = some w ∧ Lexer.hexDigit b = some x ∧
    Lexer.hexDigit c = some y ∧ Lexer.hexDigit d = some z ∧ v = w * 4096 + x * 256 + y * 16 + z

/-- The ways to write a character after a backslash. -/
inductive EscapeText (c : Char) : Bytes → Prop where
  | letter {b e : UInt8} (he : Lexer.escaped b = some e) (hc : c.val.toNat = e.toNat) :
    EscapeText c [b]
  | hex (hv : Hex4 text c.val.toNat) : EscapeText c (0x75 :: text)
  | surrogates {v : Nat} {high low : Bytes} (hhigh : Hex4 high (0xD800 + v / 0x400))
    (hlow : Hex4 low (0xDC00 + v % 0x400)) (hc : c.val.toNat = 0x10000 + v) :
    EscapeText c (0x75 :: (high ++ 0x5C :: 0x75 :: low))

/-- The ways to write a character in a JSON string. -/
inductive CharText (c : Char) : Bytes → Prop where
  | plain (hcontrol : 0x20 ≤ c.val.toNat) (hquote : c.val.toNat ≠ 0x22)
    (hbackslash : c.val.toNat ≠ 0x5C) : CharText c (String.utf8EncodeChar c)
  | escape (h : EscapeText c text) : CharText c (0x5C :: text)

/-- The ways to write a string, without its quotes. -/
inductive StringText : List Char → Bytes → Prop where
  | nil : StringText [] []
  | cons (hc : CharText c text) (h : StringText cs more) : StringText (c :: cs) (text ++ more)

namespace Lexer

@[simp] theorem token_buffer_get (lx : Lexer) : lx.get.token_buffer = lx.token_buffer := rfl

@[simp] theorem token_buffer_add (lx : Lexer) (bytes : Bytes) :
    (lx.add bytes).token_buffer = lx.token_buffer ++ bytes := rfl

theorem get_of_rest {lx : Lexer} (h : lx.rest = b :: more) :
    lx.get.current = some b ∧ lx.get.rest = more := by
  rw [current_get, rest_get, h]
  exact ⟨rfl, rfl⟩

theorem rest_of_get {lx : Lexer} (h : lx.get.current = some b) : lx.rest = b :: lx.get.rest := by
  rw [current_get, List.head?_eq_some_iff] at h
  obtain ⟨more, hmore⟩ := h
  rw [rest_get, hmore]
  rfl

theorem hexDigit_lt (h : hexDigit b = some digit) : digit < 16 := by
  rw [hexDigit] at h
  split_ifs at h <;> obtain rfl := Option.some.inj h <;> omega

theorem hex4_lt (h : Hex4 text v) : v < 0x10000 := by
  obtain ⟨a, b, c, d, w, x, y, z, rfl, ha, hb, hc, hd, rfl⟩ := h
  have hw := hexDigit_lt ha
  have hx := hexDigit_lt hb
  have hy := hexDigit_lt hc
  have hz := hexDigit_lt hd
  omega

theorem getCodepointFrom_of_rest {lx : Lexer} (h : lx.rest = b :: more)
    (hb : hexDigit b = some digit) (codepoint factor : Nat) (factors : List Nat) :
    lx.getCodepointFrom codepoint (factor :: factors) =
      lx.get.getCodepointFrom (codepoint + digit <<< factor) factors := by
  rw [getCodepointFrom, (get_of_rest h).1, Option.bind_some, hb]

theorem getCodepointFrom_some {lx : Lexer}
    (h : lx.getCodepointFrom codepoint (factor :: factors) = (some v, lx')) :
    ∃ b digit, lx.rest = b :: lx.get.rest ∧ hexDigit b = some digit ∧
      lx.get.getCodepointFrom (codepoint + digit <<< factor) factors = (some v, lx') := by
  rw [getCodepointFrom] at h
  cases hc : lx.get.current with
  | none =>
    rw [hc] at h
    cases h
  | some b =>
    rw [hc, Option.bind_some] at h
    cases hb : hexDigit b with
    | none =>
      rw [hb] at h
      cases h
    | some digit =>
      rw [hb] at h
      exact ⟨b, digit, rest_of_get hc, hb, h⟩

theorem getCodepoint_hex4 {lx : Lexer} (hv : Hex4 text v) (h : lx.rest = text ++ more) :
    ∃ lx', lx.getCodepoint = (some v, lx') ∧ lx'.rest = more ∧
      lx'.token_buffer = lx.token_buffer := by
  obtain ⟨a, b, c, d, w, x, y, z, rfl, ha, hb, hc, hd, rfl⟩ := hv
  have h₁ := (get_of_rest h).2
  have h₂ := (get_of_rest h₁).2
  have h₃ := (get_of_rest h₂).2
  refine ⟨lx.get.get.get.get, ?_, (get_of_rest h₃).2, rfl⟩
  rw [getCodepoint, getCodepointFrom_of_rest h ha, getCodepointFrom_of_rest h₁ hb,
    getCodepointFrom_of_rest h₂ hc, getCodepointFrom_of_rest h₃ hd, getCodepointFrom]
  congr 2
  simp only [Nat.shiftLeft_eq]
  omega

theorem hex4_of_getCodepoint {lx : Lexer} (h : lx.getCodepoint = (some v, lx')) :
    ∃ text, Hex4 text v ∧ lx.rest = text ++ lx'.rest ∧ lx'.token_buffer = lx.token_buffer := by
  obtain ⟨a, w, ha, hw, h⟩ := getCodepointFrom_some h
  obtain ⟨b, x, hb, hx, h⟩ := getCodepointFrom_some h
  obtain ⟨c, y, hc, hy, h⟩ := getCodepointFrom_some h
  obtain ⟨d, z, hd, hz, h⟩ := getCodepointFrom_some h
  rw [getCodepointFrom] at h
  obtain ⟨hv, rfl⟩ := Prod.mk.inj h
  refine ⟨[a, b, c, d], ⟨a, b, c, d, w, x, y, z, rfl, hw, hx, hy, hz, ?_⟩, ?_, rfl⟩
  · rw [← Option.some.inj hv]
    simp only [Nat.shiftLeft_eq]
    omega
  · rw [ha, hb, hc, hd]
    rfl

theorem nextByteInRangeFrom_within {lx : Lexer} (hw : Utf8.Within ranges tail)
    (h : lx.rest = tail ++ more) :
    ∃ lx', lx.nextByteInRangeFrom ranges = (true, lx') ∧ lx'.rest = more ∧
      lx'.token_buffer = lx.token_buffer ++ tail := by
  induction ranges generalizing lx tail with
  | nil =>
    obtain rfl := hw
    exact ⟨lx, rfl, h, (List.append_nil _).symm⟩
  | cons range ranges ih =>
    obtain ⟨b, tail, rfl, hb, hw⟩ := hw
    obtain ⟨hcurrent, hrest⟩ := get_of_rest h
    rw [← lx.get.rest_add [b]] at hrest
    obtain ⟨lx', hnext, hmore, hbuffer⟩ := ih hw hrest
    refine ⟨lx', ?_, hmore, ?_⟩
    · rw [nextByteInRangeFrom, hcurrent]
      exact (if_pos hb).trans hnext
    · rw [hbuffer, token_buffer_add, token_buffer_get, List.append_assoc]
      rfl

theorem within_of_nextByteInRangeFrom {lx : Lexer}
    (h : lx.nextByteInRangeFrom ranges = (true, lx')) :
    ∃ tail, Utf8.Within ranges tail ∧ lx.rest = tail ++ lx'.rest ∧
      lx'.token_buffer = lx.token_buffer ++ tail := by
  induction ranges generalizing lx with
  | nil =>
    obtain ⟨_, rfl⟩ := Prod.mk.inj h
    exact ⟨[], rfl, rfl, (List.append_nil _).symm⟩
  | cons range ranges ih =>
    rw [nextByteInRangeFrom] at h
    cases hc : lx.get.current with
    | none =>
      rw [hc] at h
      cases h
    | some b =>
      rw [hc] at h
      dsimp only at h
      split_ifs at h with hb
      · obtain ⟨tail, hw, hrest, hbuffer⟩ := ih h
        refine ⟨b :: tail, ⟨b, tail, rfl, hb, hw⟩, ?_, ?_⟩
        · rw [rest_of_get hc, List.cons_append, ← hrest]
          rfl
        · rw [hbuffer, token_buffer_add, token_buffer_get, List.append_assoc]
          rfl
      · cases h

theorem byteRanges_followers : ∀ n : Fin 256, n.val ≤ 0x7F ∨
    byteRanges (.ofNat n) = Utf8.followers (.ofNat n) := by
  decide +kernel

theorem byteRanges_eq (h : ¬ b.toNat ≤ 0x7F) : byteRanges b = Utf8.followers b := by
  have hb := byteRanges_followers ⟨b.toNat, b.toNat_lt⟩
  rw [UInt8.ofNat_toNat] at hb
  exact hb.resolve_left h

theorem or_shiftLeft {a b : Nat} (k : Nat) (h : b < 2 ^ k) : a <<< k ||| b = a * 2 ^ k + b := by
  rw [← Nat.shiftLeft_add_eq_or_of_lt h, Nat.shiftLeft_eq]

theorem encode_eq (h : v.isValidChar) : encode v = String.utf8EncodeChar (Utf8.scalar v h) := by
  have htail : ∀ n, 0x80 ||| n &&& 0x3F = n % 0x40 + 0x80 := by
    intro n
    have hmod : n &&& 0x3F = n % 2 ^ 6 := Nat.and_two_pow_sub_one_eq_mod n 6
    have hor := or_shiftLeft (a := 2) 6 (Nat.mod_lt n (by decide : 0 < 2 ^ 6))
    rw [hmod]
    exact hor.trans (Nat.add_comm _ _)
  rw [Utf8.encode_scalar, encode]
  rw [Nat.isValidChar] at h
  simp only [htail, Nat.shiftRight_eq_div_pow]
  by_cases h7F : v ≤ 0x7F
  · rw [if_pos (by omega), if_pos h7F]
  rw [if_neg (by omega), if_neg h7F]
  by_cases h7FF : v ≤ 0x7FF
  · have hlead : 0xC0 ||| v / 2 ^ 6 = v / 64 % 0x20 + 0xC0 := by
      have hor := or_shiftLeft (a := 3) (b := v / 2 ^ 6) 6 (by omega)
      exact hor.trans (by omega)
    rw [if_pos h7FF, if_pos h7FF, hlead]
  rw [if_neg h7FF, if_neg h7FF]
  by_cases hFFFF : v ≤ 0xFFFF
  · have hlead : 0xE0 ||| v / 2 ^ 12 = v / 4096 % 0x10 + 0xE0 := by
      have hor := or_shiftLeft (a := 14) (b := v / 2 ^ 12) 4 (by omega)
      exact hor.trans (by omega)
    rw [if_pos hFFFF, if_pos hFFFF, hlead]
  · have hlead : 0xF0 ||| v / 2 ^ 18 = v / 262144 % 0x08 + 0xF0 := by
      have hor := or_shiftLeft (a := 30) (b := v / 2 ^ 18) 3 (by omega)
      exact hor.trans (by omega)
    rw [if_neg hFFFF, if_neg hFFFF, hlead]

theorem encode_char (c : Char) : encode c.val.toNat = String.utf8EncodeChar c := encode_eq c.valid

theorem encode_ascii {c : Char} {b : UInt8} (h : c.val.toNat = b.toNat) (hb : b.toNat ≤ 0x7F) :
    String.utf8EncodeChar c = [b] := by
  rw [← encode_char, h, encode, if_pos (by omega), UInt8.ofNat_toNat]

theorem escaped_spec : ∀ n : Fin 256, (escaped (.ofNat n)).all fun e =>
    e.toNat ≤ 0x7F && n.val != 0x75 := by
  decide +kernel

theorem escaped_some (h : escaped b = some e) : e.toNat ≤ 0x7F ∧ b ≠ 0x75 := by
  have hspec := escaped_spec ⟨b.toNat, b.toNat_lt⟩
  rw [UInt8.ofNat_toNat, h] at hspec
  simp only [Option.all_some, Bool.and_eq_true, decide_eq_true_eq, bne_iff_ne] at hspec
  refine ⟨hspec.1, ?_⟩
  rintro rfl
  exact hspec.2 rfl

theorem surrogate_value (v : Nat) :
    (0xD800 + v / 0x400) <<< 10 + (0xDC00 + v % 0x400) - 0x35FDC00 = 0x10000 + v := by
  rw [Nat.shiftLeft_eq]
  omega

theorem scanEscape_of_text {lx : Lexer} (h : EscapeText c text) (hr : lx.rest = text ++ more) :
    ∃ lx', lx.scanEscape = (none, lx') ∧ lx'.rest = more ∧
      lx'.token_buffer = lx.token_buffer ++ String.utf8EncodeChar c := by
  have hvalid : c.val.toNat.isValidChar := c.valid
  rw [Nat.isValidChar] at hvalid
  cases h with
  | @letter b e he hc =>
    obtain ⟨hcurrent, hrest⟩ := get_of_rest hr
    obtain ⟨hlt, hne⟩ := escaped_some he
    refine ⟨lx.get.add [e], ?_, hrest, ?_⟩
    · rw [scanEscape, hcurrent, if_neg (by simpa using hne), Option.bind_some, he]
    · rw [encode_ascii hc hlt]
      rfl
  | hex hv =>
    obtain ⟨hcurrent, hrest⟩ := get_of_rest hr
    obtain ⟨lx', hcode, hmore, hbuffer⟩ := getCodepoint_hex4 hv hrest
    refine ⟨lx'.add (encode c.val.toNat), ?_, hmore, ?_⟩
    · rw [scanEscape, hcurrent, if_pos rfl, scanUnicode, hcode]
      dsimp only
      rw [if_neg (by omega), if_neg (by omega)]
    · rw [token_buffer_add, hbuffer, encode_char]
      rfl
  | @surrogates v high low hhigh hlow hc =>
    rw [List.cons_append, List.append_assoc] at hr
    obtain ⟨hcurrent, hrest⟩ := get_of_rest hr
    obtain ⟨lx₁, hcode₁, hmore₁, hbuffer₁⟩ := getCodepoint_hex4 hhigh hrest
    obtain ⟨hcurrent₂, hrest₂⟩ := get_of_rest hmore₁
    obtain ⟨hcurrent₃, hrest₃⟩ := get_of_rest hrest₂
    obtain ⟨lx₄, hcode₄, hmore₄, hbuffer₄⟩ := getCodepoint_hex4 hlow hrest₃
    refine ⟨lx₄.add (encode c.val.toNat), ?_, hmore₄, ?_⟩
    · rw [scanEscape, hcurrent, if_pos rfl, scanUnicode, hcode₁]
      dsimp only
      rw [if_pos (by omega), scanLowSurrogate, if_pos hcurrent₂, if_pos hcurrent₃, hcode₄]
      dsimp only
      rw [if_pos (by omega), surrogate_value, hc]
    · rw [token_buffer_add, hbuffer₄, token_buffer_get, token_buffer_get, hbuffer₁, encode_char]
      rfl

theorem text_of_scanLowSurrogate {lx : Lexer} (hv : Hex4 high codepoint1)
    (hhigh : 0xD800 ≤ codepoint1 ∧ codepoint1 ≤ 0xDBFF)
    (h : lx.scanLowSurrogate codepoint1 = (none, lx')) :
    ∃ c low, EscapeText c (0x75 :: (high ++ low)) ∧ lx.rest = low ++ lx'.rest ∧
      lx'.token_buffer = lx.token_buffer ++ String.utf8EncodeChar c := by
  rw [scanLowSurrogate] at h
  by_cases hbackslash : lx.get.current = some 0x5C
  swap
  · rw [if_neg hbackslash] at h
    cases h
  by_cases hu : lx.get.get.current = some 0x75
  swap
  · rw [if_pos hbackslash, if_neg hu] at h
    cases h
  rw [if_pos hbackslash, if_pos hu] at h
  rcases hcode : lx.get.get.getCodepoint with ⟨_ | codepoint2, lx₂⟩
  · rw [hcode] at h
    cases h
  rw [hcode] at h
  dsimp only at h
  by_cases hlow : 0xDC00 ≤ codepoint2 ∧ codepoint2 ≤ 0xDFFF
  swap
  · rw [if_neg hlow] at h
    cases h
  · rw [if_pos hlow] at h
    obtain ⟨_, rfl⟩ := Prod.mk.inj h
    obtain ⟨low, hv₂, hrest, hbuffer⟩ := hex4_of_getCodepoint hcode
    have hsum : codepoint1 <<< 10 + codepoint2 - 0x35FDC00 =
        0x10000 + ((codepoint1 - 0xD800) * 0x400 + (codepoint2 - 0xDC00)) := by
      rw [Nat.shiftLeft_eq]
      omega
    have hvalid : (0x10000 + ((codepoint1 - 0xD800) * 0x400 + (codepoint2 - 0xDC00))).isValidChar := by
      rw [Nat.isValidChar]
      omega
    refine ⟨Utf8.scalar _ hvalid, 0x5C :: 0x75 :: low, .surrogates ?_ ?_ rfl, ?_, ?_⟩
    · convert hv using 1
      omega
    · convert hv₂ using 1
      omega
    · rw [rest_of_get hbackslash, rest_of_get hu, hrest]
      rfl
    · rw [token_buffer_add, hbuffer, hsum, encode_eq hvalid]
      rfl

theorem text_of_scanEscape {lx : Lexer} (h : lx.scanEscape = (none, lx')) :
    ∃ c text, EscapeText c text ∧ lx.rest = text ++ lx'.rest ∧
      lx'.token_buffer = lx.token_buffer ++ String.utf8EncodeChar c := by
  rw [scanEscape] at h
  split_ifs at h with hu
  · rw [scanUnicode] at h
    rcases hcode : lx.get.getCodepoint with ⟨_ | codepoint1, lx₁⟩
    · rw [hcode] at h
      cases h
    obtain ⟨high, hv, hrest, hbuffer⟩ := hex4_of_getCodepoint hcode
    rw [hcode] at h
    dsimp only at h
    by_cases hhigh : 0xD800 ≤ codepoint1 ∧ codepoint1 ≤ 0xDBFF
    · rw [if_pos hhigh] at h
      obtain ⟨c, low, htext, hlowrest, hlowbuffer⟩ := text_of_scanLowSurrogate hv hhigh h
      refine ⟨c, _, htext, ?_, ?_⟩
      · rw [rest_of_get hu, hrest, hlowrest, List.cons_append, List.append_assoc]
      · rw [hlowbuffer, hbuffer]
        rfl
    by_cases hlow : 0xDC00 ≤ codepoint1 ∧ codepoint1 ≤ 0xDFFF
    · rw [if_neg hhigh, if_pos hlow] at h
      cases h
    · rw [if_neg hhigh, if_neg hlow] at h
      obtain ⟨_, rfl⟩ := Prod.mk.inj h
      have hvalid : codepoint1.isValidChar := by
        have hlt := hex4_lt hv
        rw [Nat.isValidChar]
        omega
      refine ⟨Utf8.scalar codepoint1 hvalid, 0x75 :: high, .hex hv, ?_, ?_⟩
      · rw [rest_of_get hu, hrest]
        rfl
      · rw [token_buffer_add, hbuffer, encode_eq hvalid]
        rfl
  · cases hb : lx.get.current.bind escaped with
    | none =>
      rw [hb] at h
      cases h
    | some e =>
      rw [hb] at h
      obtain ⟨_, rfl⟩ := Prod.mk.inj h
      obtain ⟨b, hcurrent, he⟩ := Option.bind_eq_some_iff.1 hb
      have hlt := (escaped_some he).1
      have hvalid : e.toNat.isValidChar := .inl (by omega)
      refine ⟨Utf8.scalar e.toNat hvalid, [b], .letter he rfl, rest_of_get hcurrent, ?_⟩
      rw [encode_ascii rfl hlt]
      rfl

theorem scanStringFrom_some {lx : Lexer} (h : lx.get.current = some b) :
    lx.scanStringFrom =
      if b = 0x22 then (.valueString lx.get.token_buffer, lx.get)
      else if b = 0x5C then
        match lx.get.scanEscape with
        | (some e, lx') => (.parseError e, lx')
        | (none, lx') => lx'.scanStringFrom
      else if hb : b.toNat ≤ 0x1F then
        (.parseError (.controlCharacter ⟨b.toNat, Nat.lt_succ_of_le hb⟩), lx.get)
      else if b.toNat ≤ 0x7F then (lx.get.add [b]).scanStringFrom
      else match byteRanges b with
        | none => (.parseError .illFormed, lx.get)
        | some ranges =>
          match lx.get.nextByteInRange ranges with
          | (false, lx') => (.parseError .illFormed, lx')
          | (true, lx') => lx'.scanStringFrom := by
  rw [scanStringFrom]
  split
  · rename_i hnone
    rw [hnone] at h
    cases h
  · rename_i b' hsome
    obtain rfl := Option.some.inj (hsome.symm.trans h)
    congr 1
    congr 1
    · generalize lx.get.scanEscape = escape
      obtain ⟨e, lx'⟩ := escape
      cases e <;> rfl
    · congr 1
      funext hb
      congr 1
      generalize byteRanges b' = ranges
      cases ranges with
      | none => rfl
      | some ranges =>
        dsimp only
        generalize lx.get.nextByteInRange ranges = inRange
        obtain ⟨ok, lx'⟩ := inRange
        cases ok <;> rfl

theorem scanStringFrom_none {lx : Lexer} (h : lx.get.current = none) :
    lx.scanStringFrom = (.parseError .missingQuote, lx.get) := by
  rw [scanStringFrom]
  split
  · rfl
  · rename_i hsome
    rw [hsome] at h
    cases h

theorem length_encode_pos (c : Char) : String.utf8EncodeChar c ≠ [] := by
  have hseq := Utf8.sequence_encode c
  intro hnil
  rw [hnil] at hseq
  cases hseq

theorem encode_first {c : Char} (h : String.utf8EncodeChar c = b :: tail) :
    tail = [] ∧ c.val.toNat = b.toNat ∧ b.toNat ≤ 0x7F ∨ 0x7F < c.val.toNat ∧ 0x7F < b.toNat := by
  by_cases hc : c.val.toNat ≤ 0x7F
  · have hb : (UInt8.ofNat c.val.toNat).toNat = c.val.toNat := Utf8.toNat_byte (by omega)
    rw [encode_ascii hb.symm (by omega)] at h
    obtain ⟨rfl, rfl⟩ := List.cons.inj h
    exact .inl ⟨rfl, hb.symm, by omega⟩
  · have hseq := Utf8.sequence_encode c
    rw [h] at hseq
    refine .inr ⟨by omega, ?_⟩
    cases hseq with
    | one hb =>
      have hlength := String.length_utf8EncodeChar c
      rw [h, List.length_singleton] at hlength
      exact absurd (UInt32.le_iff_toNat_le.1 (Char.utf8Size_eq_one_iff.1 hlength.symm)) hc
    | two ha _ => omega
    | three ha _ _ _ _ => omega
    | four ha _ _ _ _ _ => omega

/-- One character of a string, however it is written, is one round of the loop. -/
theorem scanStringFrom_char {lx : Lexer} (h : CharText c text) (hr : lx.rest = text ++ more) :
    ∃ lx' : Lexer, lx.scanStringFrom = lx'.scanStringFrom ∧ lx'.rest = more ∧
      lx'.token_buffer = lx.token_buffer ++ String.utf8EncodeChar c := by
  cases h with
  | plain hcontrol hquote hbackslash =>
    cases hc : String.utf8EncodeChar c with
    | nil => exact absurd hc (length_encode_pos c)
    | cons b tail =>
      rw [hc] at hr
      obtain ⟨hcurrent, hrest⟩ := get_of_rest hr
      have hfirst := encode_first hc
      have hbytes : ∀ n : UInt8, n.toNat ≤ 0x7F → c.val.toNat ≠ n.toNat → b ≠ n := by
        rintro n hn hne rfl
        omega
      rw [scanStringFrom_some hcurrent, if_neg (hbytes 0x22 (by decide) hquote),
        if_neg (hbytes 0x5C (by decide) hbackslash)]
      by_cases hb : b.toNat ≤ 0x7F
      · obtain ⟨rfl, _, _⟩ := hfirst.resolve_right (by omega)
        rw [dif_neg (by omega), if_pos hb]
        exact ⟨_, rfl, hrest, rfl⟩
      · obtain ⟨ranges, hf, hw⟩ := Utf8.encode_iff.1 ⟨c, hc⟩
        rw [← lx.get.rest_add lx.get.current.toList] at hrest
        obtain ⟨lx', hnext, hmore, hbuffer⟩ := nextByteInRangeFrom_within hw hrest
        rw [dif_neg (by omega), if_neg hb, byteRanges_eq hb, hf]
        dsimp only
        rw [nextByteInRange, hnext]
        refine ⟨lx', rfl, hmore, ?_⟩
        rw [hbuffer, token_buffer_add, hcurrent, List.append_assoc]
        rfl
  | escape h =>
    obtain ⟨hcurrent, hrest⟩ := get_of_rest hr
    obtain ⟨lx', hescape, hmore, hbuffer⟩ := scanEscape_of_text h hrest
    rw [scanStringFrom_some hcurrent, if_neg (by decide), if_pos rfl, hescape]
    exact ⟨lx', rfl, hmore, hbuffer⟩

theorem scanStringFrom_text {lx : Lexer} (h : StringText cs text)
    (hr : lx.rest = text ++ 0x22 :: more) :
    ∃ lx', lx.scanStringFrom = (.valueString (lx.token_buffer ++ utf8 cs), lx') ∧
      lx'.rest = more := by
  induction h generalizing lx with
  | nil =>
    obtain ⟨hcurrent, hrest⟩ := get_of_rest hr
    refine ⟨lx.get, ?_, hrest⟩
    rw [scanStringFrom_some hcurrent, if_pos rfl, utf8, List.flatMap_nil, List.append_nil]
    rfl
  | cons hc h ih =>
    rw [List.append_assoc] at hr
    obtain ⟨lx₁, hstep, hrest, hbuffer⟩ := scanStringFrom_char hc hr
    obtain ⟨lx', hscan, hmore⟩ := ih hrest
    refine ⟨lx', ?_, hmore⟩
    rw [hstep, hscan, hbuffer, utf8_cons, List.append_assoc]

theorem text_of_scanStringFrom {lx : Lexer} (h : lx.scanStringFrom = (t, lx'))
    (ht : ∀ e, t ≠ .parseError e) :
    ∃ cs text, StringText cs text ∧ lx.rest = text ++ 0x22 :: lx'.rest ∧
      t = .valueString (lx.token_buffer ++ utf8 cs) := by
  induction hn : lx.rest.length using Nat.strong_induction_on generalizing lx with
  | _ n ih =>
    subst hn
    cases hc : lx.get.current with
    | none =>
      rw [scanStringFrom_none hc] at h
      exact absurd (Prod.mk.inj h).1.symm (ht _)
    | some b =>
      have hlt := length_get_lt hc
      have hrest := rest_of_get hc
      rw [scanStringFrom_some hc] at h
      by_cases hquote : b = 0x22
      · rw [if_pos hquote] at h
        obtain ⟨rfl, rfl⟩ := Prod.mk.inj h
        refine ⟨[], [], .nil, ?_, ?_⟩
        · rw [hrest, hquote]
          rfl
        · rw [utf8, List.flatMap_nil, List.append_nil]
          rfl
      rw [if_neg hquote] at h
      by_cases hbackslash : b = 0x5C
      · rw [if_pos hbackslash] at h
        rcases hescape : lx.get.scanEscape with ⟨_ | e, lx₁⟩
        · rw [hescape] at h
          obtain ⟨c, text, htext, hrest₁, hbuffer⟩ := text_of_scanEscape hescape
          have hle : lx₁.rest.length ≤ lx.get.rest.length := by
            rw [hrest₁, List.length_append]
            omega
          obtain ⟨cs, more, hmore, hend, hs⟩ := ih _ (hle.trans_lt hlt) h rfl
          refine ⟨c :: cs, _, .cons (.escape htext) hmore, ?_, ?_⟩
          · rw [hrest, hbackslash, hrest₁, hend]
            simp
          · rw [hs, hbuffer, utf8_cons, List.append_assoc]
            rfl
        · rw [hescape] at h
          exact absurd (Prod.mk.inj h).1.symm (ht _)
      rw [if_neg hbackslash] at h
      by_cases hcontrol : b.toNat ≤ 0x1F
      · rw [dif_pos hcontrol] at h
        exact absurd (Prod.mk.inj h).1.symm (ht _)
      rw [dif_neg hcontrol] at h
      by_cases hascii : b.toNat ≤ 0x7F
      · rw [if_pos hascii] at h
        obtain ⟨cs, more, hmore, hend, hs⟩ := ih _ hlt h rfl
        have hvalid : b.toNat.isValidChar := .inl (by omega)
        have hbyte : String.utf8EncodeChar (Utf8.scalar b.toNat hvalid) = [b] :=
          encode_ascii rfl hascii
        have hplain : CharText (Utf8.scalar b.toNat hvalid) [b] := by
          rw [← hbyte]
          apply CharText.plain
          · exact Nat.lt_of_not_le hcontrol
          · exact fun hb => hquote (UInt8.toNat_inj.1 hb)
          · exact fun hb => hbackslash (UInt8.toNat_inj.1 hb)
        refine ⟨_ :: cs, _, .cons hplain hmore, ?_, ?_⟩
        · rw [hrest, ← lx.get.rest_add [b], hend]
          rfl
        · rw [hs, utf8_cons, hbyte, token_buffer_add, List.append_assoc]
          rfl
      rw [if_neg hascii, byteRanges_eq hascii] at h
      cases hf : Utf8.followers b with
      | none =>
        rw [hf] at h
        exact absurd (Prod.mk.inj h).1.symm (ht _)
      | some ranges =>
        rw [hf] at h
        dsimp only at h
        rcases hnext : lx.get.nextByteInRange ranges with ⟨_ | _, lx₁⟩
        · rw [hnext] at h
          exact absurd (Prod.mk.inj h).1.symm (ht _)
        rw [hnext] at h
        obtain ⟨tail, hw, hrest₁, hbuffer⟩ := within_of_nextByteInRangeFrom hnext
        rw [rest_add] at hrest₁
        have hle : lx₁.rest.length ≤ lx.get.rest.length := by
          rw [hrest₁, List.length_append]
          omega
        obtain ⟨cs, more, hmore, hend, hs⟩ := ih _ (hle.trans_lt hlt) h rfl
        obtain ⟨c, hchar⟩ := Utf8.encode_iff.2 ⟨ranges, hf, hw⟩
        have hfirst := encode_first hchar
        have hplain : CharText c (b :: tail) := by
          rw [← hchar]
          apply CharText.plain <;> omega
        refine ⟨c :: cs, _, .cons hplain hmore, ?_, ?_⟩
        · rw [hrest, hrest₁, hend, List.cons_append, List.cons_append, List.append_assoc]
        · rw [hs, hbuffer, utf8_cons, hchar, token_buffer_add, hc]
          simp

end Lexer

namespace Json

theorem hexDigit_lower : ∀ n : Fin 16,
    Lexer.hexDigit ((ascii "0123456789abcdef").getD n 0) = some n.val := by
  decide

theorem charText_escapeByte {b : UInt8} (hc : c.val.toNat = b.toNat) (hb : b.toNat ≤ 0x7F) :
    CharText c (escapeByte b) := by
  have hletter : ∀ l e : UInt8, Lexer.escaped l = some e → b.toNat = e.toNat →
      CharText c [0x5C, l] := fun l e he hbe => .escape (.letter he (hc.trans hbe))
  rw [escapeByte]
  split_ifs with h08 h09 h0A h0C h0D h22 h5C h1F
  · exact hletter 0x62 0x08 rfl h08
  · exact hletter 0x74 0x09 rfl h09
  · exact hletter 0x6E 0x0A rfl h0A
  · exact hletter 0x66 0x0C rfl h0C
  · exact hletter 0x72 0x0D rfl h0D
  · exact hletter 0x22 0x22 rfl h22
  · exact hletter 0x5C 0x5C rfl h5C
  · apply CharText.escape
    apply EscapeText.hex
    have hhigh := hexDigit_lower ⟨b.toNat / 16, by omega⟩
    have hlow := hexDigit_lower ⟨b.toNat % 16, Nat.mod_lt _ (by decide)⟩
    refine ⟨0x30, 0x30, _, _, 0, 0, _, _, rfl, rfl, rfl, hhigh, hlow, ?_⟩
    dsimp only
    omega
  · have hplain : CharText c (String.utf8EncodeChar c) := by
      apply CharText.plain <;> omega
    rwa [Lexer.encode_ascii hc hb] at hplain

theorem dumpEscapedFrom_tail (hl : Live state) (hw : Utf8.Within (expected state) tail) (i : Nat)
    (last : UInt8) (more : Bytes) :
    ∃ last', dumpEscapedFrom i last state (tail ++ more) =
      (dumpEscapedFrom (i + tail.length) last' UTF8_ACCEPT more).map (tail ++ ·) := by
  induction tail generalizing state i last with
  | nil =>
    have hs : state = UTF8_ACCEPT := by
      cases he : expected state with
      | nil => exact expected_live hl he
      | cons range ranges =>
        rw [he] at hw
        obtain ⟨_, _, hnil, _⟩ := hw
        cases hnil
    refine ⟨last, ?_⟩
    rw [hs, List.nil_append]
    cases dumpEscapedFrom (i + 0) last UTF8_ACCEPT more <;> rfl
  | cons b tail ih =>
    cases he : expected state with
    | nil =>
      rw [he] at hw
      cases hw
    | cons range ranges =>
      obtain ⟨l, u⟩ := range
      rw [he] at hw
      obtain ⟨b', rest, hcons, hb, hw⟩ := hw
      obtain ⟨rfl, rfl⟩ := List.cons.inj hcons
      obtain ⟨hl', _, hnext⟩ := (decode_expected he hl b).resolve_left fun h => h.2 hb
      rw [← hnext] at hw
      obtain ⟨last', ih⟩ := ih hl' hw (i + 1) b
      have hstate : state ≠ UTF8_ACCEPT := by
        rintro rfl
        cases he
      refine ⟨last', ?_⟩
      rw [List.cons_append, dumpEscapedFrom, if_neg hl'.1, ih, if_neg hstate, List.length_cons,
        Nat.add_assoc, Nat.add_comm 1]
      cases dumpEscapedFrom (i + (tail.length + 1)) last' UTF8_ACCEPT more <;> rfl

theorem dumpEscapedFrom_char (c : Char) (i : Nat) (last : UInt8) (more : Bytes) :
    ∃ text i' last', CharText c text ∧
      dumpEscapedFrom i last UTF8_ACCEPT (String.utf8EncodeChar c ++ more) =
        (dumpEscapedFrom i' last' UTF8_ACCEPT more).map (text ++ ·) := by
  cases hc : String.utf8EncodeChar c with
  | nil => exact absurd hc (Lexer.length_encode_pos c)
  | cons b tail =>
    obtain ⟨ranges, hf, hw⟩ := Utf8.encode_iff.1 ⟨c, hc⟩
    rcases decode_accept b with ⟨_, hnone⟩ | ⟨hl, hsome⟩
    · rw [hnone] at hf
      cases hf
    rw [hsome] at hf
    obtain rfl := Option.some.inj hf
    obtain ⟨last', htail⟩ := dumpEscapedFrom_tail hl hw (i + 1) b more
    refine ⟨escapeByte b ++ tail, i + 1 + tail.length, last', ?_, ?_⟩
    · rcases Lexer.encode_first hc with ⟨rfl, hval, hb⟩ | ⟨hval, hb⟩
      · rw [List.append_nil]
        exact charText_escapeByte hval hb
      · have hsame : escapeByte b = [b] := by
          rw [escapeByte]
          split_ifs <;> first | rfl | omega
        rw [hsame, List.singleton_append, ← hc]
        apply CharText.plain <;> omega
    · rw [List.cons_append, dumpEscapedFrom, if_neg hl.1, htail, if_pos rfl]
      cases dumpEscapedFrom (i + 1 + tail.length) last' UTF8_ACCEPT more <;>
        simp [Except.map, bind, Except.bind]

theorem dumpEscapedFrom_utf8 (cs : List Char) (i : Nat) (last : UInt8) :
    ∃ text, StringText cs text ∧ dumpEscapedFrom i last UTF8_ACCEPT (utf8 cs) = .ok text := by
  induction cs generalizing i last with
  | nil => exact ⟨[], .nil, rfl⟩
  | cons c cs ih =>
    obtain ⟨text, i', last', hc, hstep⟩ := dumpEscapedFrom_char c i last (utf8 cs)
    obtain ⟨more, hmore, hok⟩ := ih i' last'
    refine ⟨text ++ more, .cons hc hmore, ?_⟩
    rw [utf8_cons, hstep, hok]
    rfl

/-- The serializer writes one of the texts that the lexer reads back. -/
theorem dumpEscaped_text (h : dumpEscaped s = .ok t) :
    ∃ cs text, s = utf8 cs ∧ StringText cs text ∧ t = 0x22 :: (text ++ [0x22]) := by
  obtain ⟨cs, rfl⟩ := validUtf8_iff.1 ((dumpEscaped_ok s).1 ⟨t, h⟩)
  obtain ⟨text, htext, hok⟩ := dumpEscapedFrom_utf8 cs 0 0
  rw [dumpEscaped, hok] at h
  exact ⟨cs, text, rfl, htext, (Except.ok.inj h).symm⟩

mutual
def texts (j : Json) : List Bytes :=
  match j with
  | .string s => [s]
  | .array items => textsItems items
  | .object members => textsMembers members
  | _ => []
termination_by structural j

def textsItems (items : List Json) : List Bytes :=
  match items with
  | [] => []
  | item :: items => texts item ++ textsItems items
termination_by structural items

def textsMembers (members : List (Bytes × Json)) : List Bytes :=
  match members with
  | [] => []
  | (key, value) :: members => key :: texts value ++ textsMembers members
termination_by structural members
end

theorem bind_ok_iff {x : Except Exception α} {f : α → Except Exception β} {p : Prop}
    (hf : ∀ a, (∃ b, f a = .ok b) ↔ p) : (∃ b, x >>= f = .ok b) ↔ (∃ a, x = .ok a) ∧ p := by
  constructor
  · rintro ⟨b, h⟩
    obtain ⟨a, ha, h⟩ := bind_eq_ok.1 h
    exact ⟨⟨a, ha⟩, (hf a).1 ⟨b, h⟩⟩
  · rintro ⟨⟨a, ha⟩, hp⟩
    obtain ⟨b, hb⟩ := (hf a).2 hp
    exact ⟨b, bind_eq_ok.2 ⟨a, ha, hb⟩⟩

theorem exists_ok_iff (b : β) : (∃ b', (Except.ok b : Except Exception β) = .ok b') ↔ True :=
  ⟨fun _ => trivial, fun _ => ⟨b, rfl⟩⟩

mutual
theorem dump_texts (dumpFloat : Double → Bytes) (j : Json) :
    (∃ text, j.dump dumpFloat = .ok text) ↔ ∀ s ∈ j.texts, validUtf8 s = true := by
  cases j with
  | string s =>
    rw [texts, List.forall_mem_singleton]
    exact dumpEscaped_ok s
  | array items =>
    rw [texts, ← dumpItems_texts dumpFloat items, dump, bind_ok_iff fun _ => exists_ok_iff _,
      and_true]
  | object members =>
    rw [texts, ← dumpMembers_texts dumpFloat members, dump, bind_ok_iff fun _ => exists_ok_iff _,
      and_true]
  | _ => exact ⟨fun _ => List.forall_mem_nil _, fun _ => ⟨_, rfl⟩⟩

theorem dumpItems_texts (dumpFloat : Double → Bytes) (items : List Json) :
    (∃ text, dumpItems dumpFloat items = .ok text) ↔
      ∀ s ∈ textsItems items, validUtf8 s = true := by
  match items with
  | [] => exact ⟨fun _ => List.forall_mem_nil _, fun _ => ⟨_, rfl⟩⟩
  | item :: items =>
    rw [textsItems, List.forall_mem_append, ← dump_texts dumpFloat item,
      ← dumpItems_texts dumpFloat items, dumpItems]
    apply bind_ok_iff
    intro text
    rw [bind_ok_iff fun _ => exists_ok_iff _, and_true]

theorem dumpMembers_texts (dumpFloat : Double → Bytes) (members : List (Bytes × Json)) :
    (∃ text, dumpMembers dumpFloat members = .ok text) ↔
      ∀ s ∈ textsMembers members, validUtf8 s = true := by
  match members with
  | [] => exact ⟨fun _ => List.forall_mem_nil _, fun _ => ⟨_, rfl⟩⟩
  | (key, value) :: members =>
    rw [textsMembers, List.cons_append, List.forall_mem_cons, List.forall_mem_append,
      ← dumpEscaped_ok key, ← dump_texts dumpFloat value, ← dumpMembers_texts dumpFloat members,
      dumpMembers]
    apply bind_ok_iff
    intro name
    apply bind_ok_iff
    intro text
    rw [bind_ok_iff fun _ => exists_ok_iff _, and_true]
end

/-- A value is printed exactly when each of its strings and keys is the UTF-8 of some text. -/
theorem dump_ok_iff (dumpFloat : Double → Bytes) (j : Json) :
    (∃ text, j.dump dumpFloat = .ok text) ↔ ∀ s ∈ j.texts, ∃ text, s = utf8 text := by
  rw [dump_texts]
  exact forall₂_congr fun s _ => validUtf8_iff

end Json

end OnnxruntimeServer
