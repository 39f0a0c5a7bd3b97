import Mathlib

namespace Utf8
set_option autoImplicit true

/-- A byte that continues a sequence. -/
def Tail (b : UInt8) : Prop := 0x80 ≤ b.toNat ∧ b.toNat ≤ 0xBF

/-- The well-formed sequences: none is longer than it has to be, and none is a surrogate or lies
after the last code point. -/
inductive Sequence : List UInt8 → Prop where
  | one {a : UInt8} (ha : a.toNat ≤ 0x7F) : Sequence [a]
  | two {a b : UInt8} (ha : 0xC2 ≤ a.toNat ∧ a.toNat ≤ 0xDF) (hb : Tail b) : Sequence [a, b]
  | three {a b c : UInt8} (ha : 0xE0 ≤ a.toNat ∧ a.toNat ≤ 0xEF) (hb : Tail b) (hc : Tail c)
    (hlong : a.toNat = 0xE0 → 0xA0 ≤ b.toNat) (hsurrogate : a.toNat = 0xED → b.toNat ≤ 0x9F) :
    Sequence [a, b, c]
  | four {a b c d : UInt8} (ha : 0xF0 ≤ a.toNat ∧ a.toNat ≤ 0xF4) (hb : Tail b) (hc : Tail c)
    (hd : Tail d) (hlong : a.toNat = 0xF0 → 0x90 ≤ b.toNat)
    (hlast : a.toNat = 0xF4 → b.toNat ≤ 0x8F) : Sequence [a, b, c, d]

def scalar (v : Nat) (h : v.isValidChar) : Char := Char.ofNatAux v h

theorem encode_scalar (h : v.isValidChar) : String.utf8EncodeChar (scalar v h) =
    if v ≤ 0x7F then [UInt8.ofNat v]
    else if v ≤ 0x7FF then [.ofNat (v / 64 % 0x20 + 0xC0), .ofNat (v % 0x40 + 0x80)]
    else if v ≤ 0xFFFF then
      [.ofNat (v / 4096 % 0x10 + 0xE0), .ofNat (v / 64 % 0x40 + 0x80), .ofNat (v % 0x40 + 0x80)]
    else
      [.ofNat (v / 262144 % 0x08 + 0xF0), .ofNat (v / 4096 % 0x40 + 0x80),
        .ofNat (v / 64 % 0x40 + 0x80), .ofNat (v % 0x40 + 0x80)] := rfl

theorem byte_eq {v : Nat} {b : UInt8} (h : v = b.toNat) : UInt8.ofNat v = b := by
  rw [h, UInt8.ofNat_toNat]

theorem toNat_byte {n : Nat} (h : n < 256) : (UInt8.ofNat n).toNat = n := by
  rw [UInt8.toNat_ofNat', Nat.mod_eq_of_lt (by omega)]

theorem tail_byte (n : Nat) : Tail (.ofNat (n % 0x40 + 0x80)) := by
  rw [Tail, toNat_byte (by omega)]
  omega

theorem Sequence.exists_encode (h : Sequence bytes) : ∃ c, String.utf8EncodeChar c = bytes := by
  cases h with
  | @one a ha =>
    refine ⟨scalar a.toNat (.inl (by omega)), ?_⟩
    rw [encode_scalar, if_pos ha, UInt8.ofNat_toNat]
  | @two a b ha hb =>
    rw [Tail] at hb
    have hv : ((a.toNat - 0xC0) * 64 + (b.toNat - 0x80)).isValidChar := .inl (by omega)
    refine ⟨scalar _ hv, ?_⟩
    rw [encode_scalar, if_neg (by omega), if_pos (by omega), byte_eq (b := a) (by omega),
      byte_eq (b := b) (by omega)]
  | @three a b c ha hb hc hlong hsurrogate =>
    rw [Tail] at hb hc
    have hv : ((a.toNat - 0xE0) * 4096 + (b.toNat - 0x80) * 64 + (c.toNat - 0x80)).isValidChar := by
      rw [Nat.isValidChar]
      omega
    refine ⟨scalar _ hv, ?_⟩
    rw [encode_scalar, if_neg (by omega), if_neg (by omega), if_pos (by omega),
      byte_eq (b := a) (by omega), byte_eq (b := b) (by omega), byte_eq (b := c) (by omega)]
  | @four a b c d ha hb hc hd hlong hlast =>
    rw [Tail] at hb hc hd
    have hv : ((a.toNat - 0xF0) * 262144 + (b.toNat - 0x80) * 4096 + (c.toNat - 0x80) * 64 +
        (d.toNat - 0x80)).isValidChar := by
      rw [Nat.isValidChar]
      omega
    refine ⟨scalar _ hv, ?_⟩
    rw [encode_scalar, if_neg (by omega), if_neg (by omega), if_neg (by omega),
      byte_eq (b := a) (by omega), byte_eq (b := b) (by omega), byte_eq (b := c) (by omega),
      byte_eq (b := d) (by omega)]

theorem sequence_encode (c : Char) : Sequence (String.utf8EncodeChar c) := by
  have hvalid : c.val.toNat.isValidChar := c.valid
  have hv : c = scalar c.val.toNat hvalid := rfl
  rw [hv, encode_scalar]
  rw [Nat.isValidChar] at hvalid
  generalize c.val.toNat = v at hvalid
  split_ifs with h7F h7FF hFFFF
  · apply Sequence.one
    rw [toNat_byte (by omega)]
    exact h7F
  · apply Sequence.two _ (tail_byte _)
    rw [toNat_byte (by omega)]
    omega
  · apply Sequence.three _ (tail_byte _) (tail_byte _)
    · rw [toNat_byte (by omega), toNat_byte (by omega)]
      omega
    · rw [toNat_byte (by omega), toNat_byte (by omega)]
      omega
    · rw [toNat_byte (by omega)]
      omega
  · apply Sequence.four _ (tail_byte _) (tail_byte _) (tail_byte _)
    · rw [toNat_byte (by omega), toNat_byte (by omega)]
      omega
    · rw [toNat_byte (by omega), toNat_byte (by omega)]
      omega
    · rw [toNat_byte (by omega)]
      omega

/-- The ranges of the bytes that may follow a first byte. -/
def followers (b : UInt8) : Option (List (Nat × Nat)) :=
  if b.toNat ≤ 0x7F then some []
  else if b.toNat ≤ 0xC1 then none
  else if b.toNat ≤ 0xDF then some [(0x80, 0xBF)]
  else if b.toNat = 0xE0 then some [(0xA0, 0xBF), (0x80, 0xBF)]
  else if b.toNat = 0xED then some [(0x80, 0x9F), (0x80, 0xBF)]
  else if b.toNat ≤ 0xEF then some [(0x80, 0xBF), (0x80, 0xBF)]
  else if b.toNat = 0xF0 then some [(0x90, 0xBF), (0x80, 0xBF), (0x80, 0xBF)]
  else if b.toNat ≤ 0xF3 then some [(0x80, 0xBF), (0x80, 0xBF), (0x80, 0xBF)]
  else if b.toNat = 0xF4 then some [(0x80, 0x8F), (0x80, 0xBF), (0x80, 0xBF)]
  else none

def Within : List (Nat × Nat) → List UInt8 → Prop
  | [], bytes => bytes = []
  | (l, u) :: ranges, bytes =>
    ∃ b rest, bytes = b :: rest ∧ (l ≤ b.toNat ∧ b.toNat ≤ u) ∧ Within ranges rest

theorem sequence_of_within (hf : followers a = some ranges) (h : Within ranges bytes) :
    Sequence (a :: bytes) := by
  rw [followers] at hf
  split_ifs at hf with h7F hC1 hDF hE0 hED hEF hF0 hF3 hF4 <;> obtain rfl := Option.some.inj hf
  · obtain rfl := h
    exact .one h7F
  · obtain ⟨b, _, rfl, hb, rfl⟩ := h
    exact .two (by omega) hb
  · obtain ⟨b, _, rfl, hb, c, _, rfl, hc, rfl⟩ := h
    exact .three (by omega) ⟨by omega, hb.2⟩ hc (fun _ => hb.1) (by omega)
  · obtain ⟨b, _, rfl, hb, c, _, rfl, hc, rfl⟩ := h
    exact .three (by omega) ⟨hb.1, by omega⟩ hc (by omega) fun _ => hb.2
  · obtain ⟨b, _, rfl, hb, c, _, rfl, hc, rfl⟩ := h
    exact .three (by omega) hb hc (by omega) (by omega)
  · obtain ⟨b, _, rfl, hb, c, _, rfl, hc, d, _, rfl, hd, rfl⟩ := h
    exact .four (by omega) ⟨by omega, hb.2⟩ hc hd (fun _ => hb.1) (by omega)
  · obtain ⟨b, _, rfl, hb, c, _, rfl, hc, d, _, rfl, hd, rfl⟩ := h
    exact .four (by omega) hb hc hd (by omega) (by omega)
  · obtain ⟨b, _, rfl, hb, c, _, rfl, hc, d, _, rfl, hd, rfl⟩ := h
    exact .four (by omega) ⟨hb.1, by omega⟩ hc hd (by omega) fun _ => hb.2

theorem within_of_sequence (h : Sequence (a :: bytes)) :
    ∃ ranges, followers a = some ranges ∧ Within ranges bytes := by
  cases h with
  | one ha => exact ⟨_, if_pos ha, rfl⟩
  | two ha hb =>
    refine ⟨[(0x80, 0xBF)], ?_, _, _, rfl, hb, rfl⟩
    rw [followers, if_neg (by omega), if_neg (by omega), if_pos ha.2]
  | three ha hb hc hlong hsurrogate =>
    rw [followers, if_neg (by omega), if_neg (by omega), if_neg (by omega)]
    by_cases hE0 : a.toNat = 0xE0
    · exact ⟨_, if_pos hE0, _, _, rfl, ⟨hlong hE0, hb.2⟩, _, _, rfl, hc, rfl⟩
    rw [if_neg hE0]
    by_cases hED : a.toNat = 0xED
    · exact ⟨_, if_pos hED, _, _, rfl, ⟨hb.1, hsurrogate hED⟩, _, _, rfl, hc, rfl⟩
    rw [if_neg hED]
    exact ⟨_, if_pos ha.2, _, _, rfl, hb, _, _, rfl, hc, rfl⟩
  | four ha hb hc hd hlong hlast =>
    rw [followers, if_neg (by omega), if_neg (by omega), if_neg (by omega), if_neg (by omega),
      if_neg (by omega), if_neg (by omega)]
    by_cases hF0 : a.toNat = 0xF0
    · exact ⟨_, if_pos hF0, _, _, rfl, ⟨hlong hF0, hb.2⟩, _, _, rfl, hc, _, _, rfl, hd, rfl⟩
    rw [if_neg hF0]
    by_cases hF3 : a.toNat ≤ 0xF3
    · exact ⟨_, if_pos hF3, _, _, rfl, hb, _, _, rfl, hc, _, _, rfl, hd, rfl⟩
    have hF4 : a.toNat = 0xF4 := by omega
    rw [if_neg hF3]
    exact ⟨_, if_pos hF4, _, _, rfl, ⟨hb.1, hlast hF4⟩, _, _, rfl, hc, _, _, rfl, hd, rfl⟩

/-- The table of the followers lists the encodings of the characters. -/
theorem encode_iff : (∃ c, String.utf8EncodeChar c = a :: bytes) ↔
    ∃ ranges, followers a = some ranges ∧ Within ranges bytes := by
  constructor
  · rintro ⟨c, hc⟩
    apply within_of_sequence
    rw [← hc]
    exact sequence_encode c
  · rintro ⟨ranges, hf, h⟩
    exact (sequence_of_within hf h).exists_encode

end Utf8
