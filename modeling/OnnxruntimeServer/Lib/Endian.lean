import Mathlib

namespace Endian
set_option autoImplicit true

/-- The `k` low bytes of a number, least significant first. -/
def bytes : Nat → Nat → List UInt8
  | 0, _ => []
  | k + 1, n => n.toUInt8 :: bytes k (n / 256)

def value : List UInt8 → Nat
  | [] => 0
  | b :: bs => b.toNat + 256 * value bs

def swap (k n : Nat) : Nat := value (bytes k n).reverse

@[simp] theorem length_bytes (k n : Nat) : (bytes k n).length = k := by
  induction k generalizing n with
  | zero => rfl
  | succ k ih => rw [bytes, List.length_cons, ih]

theorem value_lt (bs : List UInt8) : value bs < 256 ^ bs.length := by
  induction bs with
  | nil => exact Nat.one_pos
  | cons b bs ih =>
    have hb := b.toNat_lt
    rw [value, List.length_cons, pow_succ]
    omega

theorem value_bytes (hn : n < 256 ^ k) : value (bytes k n) = n := by
  induction k generalizing n with
  | zero =>
    rw [pow_zero] at hn
    exact (Nat.lt_one_iff.1 hn).symm
  | succ k ih =>
    have hq : n / 256 < 256 ^ k := Nat.div_lt_of_lt_mul (by rwa [pow_succ'] at hn)
    rw [bytes, value, ih hq, Nat.toUInt8_eq, UInt8.toNat_ofNat']
    omega

theorem bytes_value (bs : List UInt8) : bytes bs.length (value bs) = bs := by
  induction bs with
  | nil => rfl
  | cons b bs ih =>
    have hb := b.toNat_lt
    have hq : (b.toNat + 256 * value bs) / 256 = value bs := by omega
    have hr : (b.toNat + 256 * value bs).toUInt8 = b := by
      apply UInt8.toNat_inj.1
      rw [Nat.toUInt8_eq, UInt8.toNat_ofNat']
      omega
    rw [List.length_cons, value, bytes, hq, hr, ih]

theorem value_append (as bs : List UInt8) :
    value (as ++ bs) = value as + 256 ^ as.length * value bs := by
  induction as with
  | nil => simp [value]
  | cons a as ih =>
    rw [List.cons_append, value, value, ih, List.length_cons, pow_succ]
    ring

theorem bytes_add (hm : m < 256 ^ j) (k n : Nat) :
    bytes (j + k) (m + 256 ^ j * n) = bytes j m ++ bytes k n := by
  induction j generalizing m with
  | zero =>
    rw [pow_zero] at hm ⊢
    rw [Nat.lt_one_iff.1 hm, Nat.zero_add, Nat.zero_add, Nat.one_mul]
    rfl
  | succ j ih =>
    have hq : m / 256 < 256 ^ j := Nat.div_lt_of_lt_mul (by rwa [pow_succ'] at hm)
    have hd : (m + 256 ^ (j + 1) * n) / 256 = m / 256 + 256 ^ j * n := by
      rw [pow_succ', Nat.mul_assoc, Nat.add_mul_div_left _ _ (by omega)]
    have hr : (m + 256 ^ (j + 1) * n).toUInt8 = m.toUInt8 := by
      apply UInt8.toNat_inj.1
      rw [Nat.toUInt8_eq, Nat.toUInt8_eq, UInt8.toNat_ofNat', UInt8.toNat_ofNat', pow_succ',
        Nat.mul_assoc]
      omega
    rw [show j + 1 + k = j + k + 1 by omega, bytes, hd, hr, ih hq, bytes, List.cons_append]

theorem swap_lt (k n : Nat) : swap k n < 256 ^ k := by
  have h := value_lt (bytes k n).reverse
  rwa [List.length_reverse, length_bytes] at h

theorem bytes_swap (k n : Nat) : bytes k (swap k n) = (bytes k n).reverse := by
  have h := bytes_value (bytes k n).reverse
  rwa [List.length_reverse, length_bytes] at h

theorem swap_swap (hn : n < 256 ^ k) : swap k (swap k n) = n := by
  rw [swap, bytes_swap, List.reverse_reverse, value_bytes hn]

/-- Swapping a double-width number swaps its halves and exchanges them. -/
theorem swap_add (hm : m < 256 ^ j) (k n : Nat) :
    swap (j + k) (m + 256 ^ j * n) = swap k n + 256 ^ k * swap j m := by
  rw [swap, bytes_add hm, List.reverse_append, value_append, List.length_reverse, length_bytes,
    swap, swap]

end Endian
