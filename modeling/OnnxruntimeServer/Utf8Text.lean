import OnnxruntimeServer.Lib.Utf8Sequences
import OnnxruntimeServer.Utf8

namespace OnnxruntimeServer
set_option autoImplicit true

def utf8 (text : List Char) : Bytes := text.flatMap String.utf8EncodeChar

theorem utf8_cons (c : Char) (text : List Char) :
    utf8 (c :: text) = String.utf8EncodeChar c ++ utf8 text := List.flatMap_cons

theorem exists_utf8_cons : (∃ text, b :: s = utf8 text) ↔
    ∃ ranges tail text, Utf8.followers b = some ranges ∧ Utf8.Within ranges tail ∧
      s = tail ++ utf8 text := by
  constructor
  · rintro ⟨text, hs⟩
    cases text with
    | nil => cases hs
    | cons c text =>
      rw [utf8_cons] at hs
      cases hc : String.utf8EncodeChar c with
      | nil =>
        have hseq := Utf8.sequence_encode c
        rw [hc] at hseq
        cases hseq
      | cons b' tail =>
        rw [hc] at hs
        obtain ⟨rfl, rfl⟩ := List.cons.inj hs
        obtain ⟨ranges, hf, hw⟩ := Utf8.encode_iff.1 ⟨c, hc⟩
        exact ⟨ranges, tail, text, hf, hw, rfl⟩
  · rintro ⟨ranges, tail, text, hf, hw, rfl⟩
    obtain ⟨c, hc⟩ := Utf8.encode_iff.2 ⟨ranges, hf, hw⟩
    refine ⟨c :: text, ?_⟩
    rw [utf8_cons, hc]
    rfl

/-- What the states of `decode` still expect. -/
def expected : Nat → List (Nat × Nat)
  | 2 => [(0x80, 0xBF)]
  | 3 => [(0x80, 0xBF), (0x80, 0xBF)]
  | 4 => [(0xA0, 0xBF), (0x80, 0xBF)]
  | 5 => [(0x80, 0x9F), (0x80, 0xBF)]
  | 6 => [(0x90, 0xBF), (0x80, 0xBF), (0x80, 0xBF)]
  | 7 => [(0x80, 0xBF), (0x80, 0xBF), (0x80, 0xBF)]
  | 8 => [(0x80, 0x8F), (0x80, 0xBF), (0x80, 0xBF)]
  | _ => []

def Live (state : Nat) : Prop := state ≠ UTF8_REJECT ∧ state ≤ 8

instance (state : Nat) : Decidable (Live state) := inferInstanceAs (Decidable (_ ∧ _))

theorem decode_first : ∀ n : Fin 256,
    decode UTF8_ACCEPT (.ofNat n) = UTF8_REJECT ∧ Utf8.followers (.ofNat n) = none ∨
      Live (decode UTF8_ACCEPT (.ofNat n)) ∧
        Utf8.followers (.ofNat n) = some (expected (decode UTF8_ACCEPT (.ofNat n))) := by
  decide +kernel

theorem decode_later : ∀ (k : Fin 7) (n : Fin 256),
    decode (k + 2) (.ofNat n) = UTF8_REJECT ∧
        (expected (k + 2)).head?.all (fun range => n.val < range.1 || range.2 < n.val) = true ∨
      Live (decode (k + 2) (.ofNat n)) ∧
        (expected (k + 2)).head?.all (fun range => range.1 ≤ n.val && n.val ≤ range.2) = true ∧
        expected (decode (k + 2) (.ofNat n)) = (expected (k + 2)).tail := by
  decide +kernel

theorem decode_accept (b : UInt8) :
    decode UTF8_ACCEPT b = UTF8_REJECT ∧ Utf8.followers b = none ∨
      Live (decode UTF8_ACCEPT b) ∧ Utf8.followers b = some (expected (decode UTF8_ACCEPT b)) := by
  simpa using decode_first ⟨b.toNat, b.toNat_lt⟩

theorem decode_expected (h : expected state = (l, u) :: ranges) (hs : Live state) (b : UInt8) :
    decode state b = UTF8_REJECT ∧ ¬ (l ≤ b.toNat ∧ b.toNat ≤ u) ∨
      Live (decode state b) ∧ (l ≤ b.toNat ∧ b.toNat ≤ u) ∧
        expected (decode state b) = ranges := by
  obtain ⟨k, rfl⟩ : ∃ k : Fin 7, state = k + 2 := by
    match state with
    | 0 => cases h
    | 1 => exact absurd rfl hs.1
    | k + 2 => exact ⟨⟨k, by have := hs.2; omega⟩, rfl⟩
  have hlater := decode_later k ⟨b.toNat, b.toNat_lt⟩
  simp only [h, UInt8.ofNat_toNat, List.head?_cons, Option.all_some, List.tail_cons,
    Bool.or_eq_true, Bool.and_eq_true, decide_eq_true_eq] at hlater
  rcases hlater with ⟨hr, hout⟩ | ⟨hl, hin, he⟩
  · exact .inl ⟨hr, by omega⟩
  · exact .inr ⟨hl, hin, he⟩

theorem expected_live (h : Live state) (he : expected state = []) : state = UTF8_ACCEPT := by
  match state with
  | 0 => rfl
  | 1 => exact absurd rfl h.1
  | 2 | 3 | 4 | 5 | 6 | 7 | 8 => cases he
  | _ + 9 =>
    have := h.2
    omega

/-- The serializer ends between characters exactly after what its state still expects and some
text. -/
theorem decodeAll_iff (h : Live state) :
    decodeAll state s = some UTF8_ACCEPT ↔
      ∃ tail text, s = tail ++ utf8 text ∧ Utf8.Within (expected state) tail := by
  induction s generalizing state with
  | nil =>
    rw [decodeAll, Option.some.injEq]
    constructor
    · rintro rfl
      exact ⟨[], [], rfl, rfl⟩
    · rintro ⟨tail, text, hs, hw⟩
      obtain ⟨rfl, -⟩ := List.append_eq_nil_iff.1 hs.symm
      cases he : expected state with
      | nil => exact expected_live h he
      | cons range ranges =>
        rw [he] at hw
        obtain ⟨_, _, hnil, _⟩ := hw
        cases hnil
  | cons b s ih =>
    rw [decodeAll]
    cases he : expected state with
    | nil =>
      obtain rfl := expected_live h he
      have htext : (∃ tail text, b :: s = tail ++ utf8 text ∧ Utf8.Within [] tail) ↔
          ∃ text, b :: s = utf8 text := by
        constructor
        · rintro ⟨tail, text, hs, rfl⟩
          exact ⟨text, hs⟩
        · rintro ⟨text, hs⟩
          exact ⟨[], text, hs, rfl⟩
      rw [htext, exists_utf8_cons]
      rcases decode_accept b with ⟨hr, hf⟩ | ⟨hl, hf⟩
      · rw [if_pos hr, hf]
        simp
      · rw [if_neg hl.1, ih hl, hf]
        constructor
        · rintro ⟨tail, text, hs, hw⟩
          exact ⟨_, tail, text, rfl, hw, hs⟩
        · rintro ⟨ranges, tail, text, hr, hw, hs⟩
          obtain rfl := Option.some.inj hr
          exact ⟨tail, text, hs, hw⟩
    | cons range ranges =>
      obtain ⟨l, u⟩ := range
      rcases decode_expected he h b with ⟨hr, hout⟩ | ⟨hl, hin, hnext⟩
      · rw [if_pos hr]
        simp only [reduceCtorEq, false_iff]
        rintro ⟨tail, text, hs, b', rest, rfl, hb, _⟩
        obtain ⟨rfl, _⟩ := List.cons.inj hs
        exact hout hb
      · rw [if_neg hl.1, ih hl, hnext]
        constructor
        · rintro ⟨tail, text, rfl, hw⟩
          exact ⟨b :: tail, text, rfl, b, tail, rfl, hin, hw⟩
        · rintro ⟨tail, text, hs, b', rest, rfl, hb, hw⟩
          obtain ⟨rfl, rfl⟩ := List.cons.inj hs
          exact ⟨rest, text, rfl, hw⟩

/-- What `dump()` accepts as a string are the Unicode texts. -/
theorem validUtf8_iff : validUtf8 s = true ↔ ∃ text, s = utf8 text := by
  have hlive : Live UTF8_ACCEPT := by decide
  rw [validUtf8, beq_iff_eq, decodeAll_iff hlive]
  constructor
  · rintro ⟨tail, text, rfl, rfl⟩
    exact ⟨text, rfl⟩
  · rintro ⟨text, rfl⟩
    exact ⟨[], text, rfl, rfl⟩

end OnnxruntimeServer
