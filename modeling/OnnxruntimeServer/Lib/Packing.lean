import Mathlib

namespace OnnxruntimeServer
set_option autoImplicit true
namespace Packing

/-- Bit `b` of a memory, counted from the lowest bit of its first byte. -/
def bit (data : Nat → UInt8) (b : Nat) : Bool := (data (b / 8)).toNat.testBit (b % 8)

def field (w : Nat) (data : Nat → UInt8) (i : Nat) : Nat :=
  (data (i * w / 8)).toNat / 2 ^ (i * w % 8) % 2 ^ w

/-- As many bytes as are needed, with the codes in them one after the other and lowest bits first.
The bits behind the last code can be anything. -/
structure Packs (w : Nat) (codes : List Nat) (bytes : List UInt8) : Prop where
  length : bytes.length = (codes.length * w + 7) / 8
  bits : ∀ (i : Nat) (h : i < codes.length), ∀ k < w,
    bit (bytes.getD · 0) (i * w + k) = codes[i].testBit k

/-- The bits of the `j`-th byte; `high` fills up the last byte. -/
def packBit (w : Nat) (codes : List Nat) (high : Nat → Bool) (b : Nat) : Bool :=
  if b < codes.length * w then (codes.getD (b / w) 0).testBit (b % w) else high b

def pack (w : Nat) (codes : List Nat) (high : Nat → Bool) : List UInt8 :=
  (List.range ((codes.length * w + 7) / 8)).map fun j =>
    .ofNat (Nat.ofBits fun k : Fin 8 => packBit w codes high (j * 8 + k))

theorem bit_pack (w : Nat) (codes : List Nat) (high : Nat → Bool) (hb : b < codes.length * w) :
    bit ((pack w codes high).getD · 0) b = packBit w codes high b := by
  have hj : b / 8 < (codes.length * w + 7) / 8 := by omega
  have hk : b % 8 < 8 := Nat.mod_lt _ (by omega)
  have hlt : Nat.ofBits (fun k : Fin 8 => packBit w codes high (b / 8 * 8 + k)) < 2 ^ 8 :=
    Nat.ofBits_lt_two_pow _
  have hbyte : (pack w codes high).getD (b / 8) 0 =
      .ofNat (Nat.ofBits fun k : Fin 8 => packBit w codes high (b / 8 * 8 + k)) := by
    simp [pack, List.getD, hj]
  rw [bit, hbyte, UInt8.toNat_ofNat_of_lt' hlt, Nat.testBit_ofBits_lt _ _ hk]
  congr 1
  exact Nat.div_add_mod' b 8

theorem packs_pack (hw : 0 < w) (codes : List Nat) (high : Nat → Bool) :
    Packs w codes (pack w codes high) := by
  refine ⟨by simp [pack], ?_⟩
  intro i h k hk
  have hb : i * w + k < codes.length * w := by
    calc i * w + k < (i + 1) * w := by rw [Nat.succ_mul]; omega
      _ ≤ codes.length * w := Nat.mul_le_mul_right w h
  have hdiv : (i * w + k) / w = i := by
    rw [Nat.mul_comm, Nat.mul_add_div hw, Nat.div_eq_of_lt hk, Nat.add_zero]
  have hmod : (i * w + k) % w = k := by
    rw [Nat.mul_comm, Nat.mul_add_mod, Nat.mod_eq_of_lt hk]
  rw [bit_pack w codes high hb, packBit, if_pos hb, hdiv, hmod, List.getD_eq_getElem _ _ h]

/-- Where no field lies across two bytes, the fields of a packing are the codes. -/
theorem Packs.field_eq (h : Packs w codes bytes) (hw : w ∣ 8) (hi : i < codes.length)
    (hlt : codes[i] < 2 ^ w) {data : Nat → UInt8}
    (hd : ∀ j < bytes.length, data j = bytes.getD j 0) : field w data i = codes[i] := by
  have hpos : 0 < w := Nat.pos_of_dvd_of_pos hw (by decide)
  apply Nat.eq_of_testBit_eq
  intro k
  rw [field, Nat.testBit_mod_two_pow, Nat.testBit_div_two_pow]
  by_cases hk : k < w
  · have hj : i * w / 8 < bytes.length := by
      have hle : (i + 1) * w ≤ codes.length * w := Nat.mul_le_mul_right w hi
      rw [Nat.succ_mul] at hle
      rw [h.length]
      omega
    have hfit : i * w % 8 + k < 8 := by
      obtain ⟨m, hm⟩ := hw
      have hmod : i * w % 8 = w * (i % m) := by
        rw [hm, Nat.mul_comm i w, Nat.mul_mod_mul_left]
      have him : i % m + 1 ≤ m := Nat.mod_lt _ (Nat.pos_of_ne_zero (by rintro rfl; omega))
      have hle := Nat.mul_le_mul_left w him
      rw [Nat.mul_succ] at hle
      omega
    have hdiv : (i * w + k) / 8 = i * w / 8 := by omega
    have hmod : (i * w + k) % 8 = k + i * w % 8 := by omega
    rw [← h.bits i hi k hk, bit, hdiv, hmod, hd _ hj, Nat.add_comm]
    simp [hk]
  · have hle : 2 ^ w ≤ 2 ^ k := Nat.pow_le_pow_right (by decide) (by omega)
    rw [Nat.testBit_lt_two_pow (lt_of_lt_of_le hlt hle)]
    simp [hk]

end Packing
end OnnxruntimeServer
