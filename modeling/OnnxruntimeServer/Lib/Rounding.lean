import Mathlib

namespace Rounding
set_option autoImplicit true

variable {K : Type*} [Field K] [LinearOrder K] [IsStrictOrderedRing K] [FloorRing K]

/-- The nearest integer; of two, the even one. -/
def nearestEven (x : K) : ℤ :=
  if Int.fract x < 1 / 2 then ⌊x⌋
  else if 1 / 2 < Int.fract x then ⌊x⌋ + 1
  else if Even ⌊x⌋ then ⌊x⌋
  else ⌊x⌋ + 1

def ulpExponent (p : ℕ) (x : K) : ℤ := Int.log 2 |x| + 1 - p

/-- The nearest number of `p` significant bits, whatever its exponent; ties go to the even one. -/
def round (p : ℕ) (x : K) : K :=
  if x = 0 then 0 else nearestEven (x / 2 ^ ulpExponent p x) * 2 ^ ulpExponent p x

theorem abs_nearestEven_sub_le (x : K) : |(nearestEven x : K) - x| ≤ 1 / 2 := by
  have hfract := Int.fract_add_floor x
  have hpos := Int.fract_nonneg x
  have hlt := Int.fract_lt_one x
  have hbelow : Int.fract x ≤ 1 / 2 → |(⌊x⌋ : K) - x| ≤ 1 / 2 := by
    intro hless
    rw [abs_sub_comm, ← Int.fract, abs_of_nonneg hpos]
    exact hless
  have habove : 1 / 2 ≤ Int.fract x → |((⌊x⌋ + 1 : ℤ) : K) - x| ≤ 1 / 2 := by
    intro hgreater
    rw [Int.cast_add, Int.cast_one, abs_of_nonneg (by linarith only [hfract, hlt])]
    linarith only [hfract, hgreater]
  rw [nearestEven]
  split_ifs with hless hgreater heven
  · exact hbelow hless.le
  · exact habove hgreater.le
  · exact hbelow (not_lt.1 hgreater)
  · exact habove (not_lt.1 hless)

theorem nearestEven_intCast (k : ℤ) : nearestEven (k : K) = k := by
  rw [nearestEven, Int.fract_intCast, if_pos (by positivity), Int.floor_intCast]

/-- Rounding to `p` bits changes a number by at most half a unit in its last place. -/
theorem abs_round_sub_le (p : ℕ) (x : K) : |round p x - x| ≤ |x| / 2 ^ p := by
  rw [round]
  split_ifs with hx
  · rw [hx, sub_zero, abs_zero, zero_div]
  · have habs : 0 < |x| := abs_pos.2 hx
    have hulp : (0 : K) < 2 ^ ulpExponent p x := zpow_pos two_pos _
    have hlog : (2 : K) ^ Int.log 2 |x| ≤ |x| := by
      exact_mod_cast Int.zpow_log_le_self (R := K) one_lt_two habs
    have hnear := abs_nearestEven_sub_le (x / 2 ^ ulpExponent p x)
    have hscale : (nearestEven (x / 2 ^ ulpExponent p x) : K) * 2 ^ ulpExponent p x - x =
        (nearestEven (x / 2 ^ ulpExponent p x) - x / 2 ^ ulpExponent p x) *
          2 ^ ulpExponent p x := by
      rw [sub_mul, div_mul_cancel₀ x hulp.ne']
    have hhalf : (1 / 2 : K) * 2 ^ ulpExponent p x = 2 ^ Int.log 2 |x| / 2 ^ p := by
      rw [ulpExponent, zpow_sub₀ two_ne_zero, zpow_add₀ two_ne_zero, zpow_one, zpow_natCast]
      ring
    rw [hscale, abs_mul, abs_of_pos hulp]
    calc |(nearestEven (x / 2 ^ ulpExponent p x) : K) - x / 2 ^ ulpExponent p x| *
          2 ^ ulpExponent p x
        ≤ 1 / 2 * 2 ^ ulpExponent p x := mul_le_mul_of_nonneg_right hnear hulp.le
      _ = 2 ^ Int.log 2 |x| / 2 ^ p := hhalf
      _ ≤ |x| / 2 ^ p := by gcongr

theorem round_le (p : ℕ) {x : K} (hx : 0 < x) : round p x ≤ x * (1 + 1 / 2 ^ p) := by
  have h := (abs_le.1 (abs_round_sub_le p x)).2
  rw [abs_of_pos hx, div_eq_mul_one_div] at h
  linarith

theorem le_round (p : ℕ) {x : K} (hx : 0 < x) : x * (1 - 1 / 2 ^ p) ≤ round p x := by
  have h := (abs_le.1 (abs_round_sub_le p x)).1
  rw [abs_of_pos hx, div_eq_mul_one_div] at h
  linarith

theorem round_of_multiple {p : ℕ} {x : K} {k : ℤ} (h : x = k * 2 ^ ulpExponent p x) :
    round p x = x := by
  have hulp : (2 : K) ^ ulpExponent p x ≠ 0 := zpow_ne_zero _ two_ne_zero
  rw [round]
  split_ifs with hx
  · exact hx.symm
  · have hquot : x / 2 ^ ulpExponent p x = k := by rw [div_eq_iff hulp, ← h]
    rw [hquot, nearestEven_intCast, ← h]

theorem round_intCast {p : ℕ} (hp : 0 < p) {k : ℤ} (hk : |k| ≤ 2 ^ p) :
    round p (k : K) = k := by
  rcases eq_or_ne k 0 with rfl | hne
  · rw [Int.cast_zero, round, if_pos rfl]
  · have hlog : Int.log 2 |(k : K)| = Nat.log 2 k.natAbs := by
      rw [← Int.cast_abs, Int.abs_eq_natAbs, Int.cast_natCast, Int.log_natCast]
    have hnat : k.natAbs ≤ 2 ^ p := by
      rw [Int.abs_eq_natAbs] at hk
      exact_mod_cast hk
    rcases hnat.lt_or_eq with hlt | heq
    · have hle : Nat.log 2 k.natAbs < p := Nat.log_lt_of_lt_pow (Int.natAbs_ne_zero.2 hne) hlt
      obtain ⟨n, hn⟩ : ∃ n : ℕ, ulpExponent p (k : K) = -n :=
        ⟨p - (Nat.log 2 k.natAbs + 1), by rw [ulpExponent, hlog]; omega⟩
      apply round_of_multiple (k := k * 2 ^ n)
      rw [hn, zpow_neg, zpow_natCast]
      push_cast
      rw [mul_assoc, mul_inv_cancel₀ (pow_ne_zero n two_ne_zero), mul_one]
    · have hulp : ulpExponent p (k : K) = 1 := by
        rw [ulpExponent, hlog, heq, Nat.log_pow one_lt_two]
        omega
      obtain ⟨q, rfl⟩ : ∃ q, p = q + 1 := ⟨p - 1, by omega⟩
      have heven : (2 : ℤ) ∣ k := by
        rw [← Int.dvd_natAbs, heq]
        exact ⟨2 ^ q, by push_cast; ring⟩
      obtain ⟨m, rfl⟩ := heven
      apply round_of_multiple (k := m)
      rw [hulp, zpow_one]
      push_cast
      ring

section Ceil

variable {p : ℕ} {m n s : ℤ}

theorem inv_le_div_sub (hs : 0 < s) (h : (m : K) < n / s) : 1 / (s : K) ≤ n / s - m := by
  have hs' : (0 : K) < s := by exact_mod_cast hs
  rw [lt_div_iff₀ hs'] at h
  have hint : m * s + 1 ≤ n := by exact_mod_cast h
  have hcast : ((m * s + 1 : ℤ) : K) ≤ n := by exact_mod_cast hint
  rw [div_le_iff₀ hs', sub_mul, div_mul_cancel₀ _ hs'.ne']
  push_cast at hcast
  linarith

theorem inv_le_sub_div (hs : 0 < s) (h : (n : K) / s < m) : 1 / (s : K) ≤ m - n / s := by
  have hbelow : ((-m : ℤ) : K) < ((-n : ℤ) : K) / s := by
    push_cast
    rw [neg_div]
    exact neg_lt_neg h
  have hneg := inv_le_div_sub hs hbelow
  push_cast at hneg
  rw [neg_div, sub_neg_eq_add, neg_add_eq_sub] at hneg
  exact hneg

/-- Rounding the quotient of two integers does not move its ceiling, as long as the dividend is
smaller than the precision. -/
theorem ceil_round_div (hp : 0 < p) (hn : 0 ≤ n) (hnp : n < 2 ^ p) (hs : 0 < s) :
    ⌈round p ((n : K) / s)⌉ = ⌈(n : K) / s⌉ := by
  have hs' : (0 : K) < s := by exact_mod_cast hs
  rcases hn.eq_or_lt with rfl | hpos
  · rw [Int.cast_zero, zero_div, round, if_pos rfl]
  · have hn' : (0 : K) < n := by exact_mod_cast hpos
    have hnp' : (n : K) < 2 ^ p := by exact_mod_cast hnp
    have herr : |round p ((n : K) / s) - n / s| < 1 / s := by
      apply (abs_round_sub_le p ((n : K) / s)).trans_lt
      rw [abs_of_pos (div_pos hn' hs'), div_div, div_lt_div_iff₀ (by positivity) hs', one_mul,
        mul_comm (s : K)]
      exact mul_lt_mul_of_pos_right hnp' hs'
    obtain ⟨hlow, hhigh⟩ := abs_lt.1 herr
    have hceil := Int.le_ceil ((n : K) / s)
    have hceil' := Int.ceil_lt_add_one ((n : K) / s)
    rw [Int.ceil_eq_iff]
    constructor
    · have hbelow : ((⌈(n : K) / s⌉ - 1 : ℤ) : K) < n / s := by
        push_cast
        exact sub_lt_iff_lt_add.2 hceil'
      have hgap := inv_le_div_sub hs hbelow
      push_cast at hgap
      linarith only [hgap, hlow]
    · rcases hceil.lt_or_eq with hlt | heq
      · have hgap := inv_le_sub_div hs hlt
        linarith only [hgap, hhigh]
      · -- The quotient is an integer, which needs no rounding.
        obtain ⟨k, hk⟩ : ∃ k : ℤ, (n : K) / s = k := ⟨_, heq⟩
        have hkn : k ≤ n := by
          have hdiv : (n : K) / s ≤ n := div_le_self hn'.le (by exact_mod_cast hs)
          rw [hk] at hdiv
          exact_mod_cast hdiv
        have hkpos : 0 < k := by
          have hdiv := div_pos hn' hs'
          rw [hk] at hdiv
          exact_mod_cast hdiv
        rw [hk, round_intCast hp (by rw [abs_of_pos hkpos]; omega), Int.ceil_intCast]

omit [IsStrictOrderedRing K] in
theorem ceil_eq_one_of_pos_le_one {x : K} (h : 0 < x) (h' : x ≤ 1) : ⌈x⌉ = 1 := by
  rw [Int.ceil_eq_iff, Int.cast_one, sub_self]
  exact ⟨h, h'⟩

theorem sub_le_round_of_lt (hsp : 2 ^ p < s) : (2 : K) ^ p - 1 / 2 ^ p ≤ round p (s : K) := by
  have hup : (2 : K) ^ p * (1 / 2 ^ p) = 1 := mul_one_div_cancel (pow_ne_zero p two_ne_zero)
  have hu : (1 : K) / 2 ^ p ≤ 1 := by
    rw [div_le_one (pow_pos two_pos p)]
    exact one_le_pow₀ one_le_two
  have hs : (2 : K) ^ p + 1 ≤ s := by exact_mod_cast hsp
  have hspos : (0 : K) < s := (add_pos (pow_pos two_pos p) one_pos).trans_le hs
  have hmul : (2 ^ p + 1) * (1 - 1 / 2 ^ p) ≤ (s : K) * (1 - 1 / 2 ^ p) :=
    mul_le_mul_of_nonneg_right hs (sub_nonneg.2 hu)
  have hround := le_round p hspos
  linarith only [hup, hmul, hround]

theorem round_div_le_one (hpos : 0 < n) (hnp : n < 2 ^ p) {d : K} (hd0 : 0 < d)
    (hd : 2 ^ p - 1 / 2 ^ p ≤ d) : round p (n / d) ≤ 1 := by
  have hn : (0 : K) < n := by exact_mod_cast hpos
  have hup : (2 : K) ^ p * (1 / 2 ^ p) = 1 := mul_one_div_cancel (pow_ne_zero p two_ne_zero)
  have hu : (0 : K) < 1 / 2 ^ p := one_div_pos.2 (pow_pos two_pos p)
  have hn₁ : (n : K) ≤ 2 ^ p - 1 := by
    rw [le_sub_iff_add_le]
    exact_mod_cast hnp
  have hmul : (n : K) * (1 + 1 / 2 ^ p) ≤ (2 ^ p - 1) * (1 + 1 / 2 ^ p) :=
    mul_le_mul_of_nonneg_right hn₁ (add_pos one_pos hu).le
  apply (round_le p (div_pos hn hd0)).trans
  rw [div_mul_eq_mul_div, div_le_one hd0]
  linarith only [hup, hmul, hd]

/-- The same where the divisor is rounded as well: one that needs it is beyond the dividend. -/
theorem ceil_round_div_round (hp : 0 < p) (hn : 0 ≤ n) (hnp : n < 2 ^ p) (hs : 0 < s) :
    ⌈round p (round p (n : K) / round p (s : K))⌉ = ⌈(n : K) / s⌉ := by
  rw [round_intCast hp (by rw [abs_of_nonneg hn]; exact hnp.le)]
  by_cases hsp : s ≤ 2 ^ p
  · rw [round_intCast hp (by rwa [abs_of_pos hs]), ceil_round_div hp hn hnp hs]
  · rcases hn.eq_or_lt with rfl | hpos
    · rw [Int.cast_zero, zero_div, zero_div, round, if_pos rfl]
    · have hn' : (0 : K) < n := by exact_mod_cast hpos
      have hspos : (0 : K) < s := by exact_mod_cast hs
      have hu : (1 : K) / 2 ^ p < 1 := by
        rw [div_lt_one (pow_pos two_pos p)]
        exact one_lt_pow₀ one_lt_two hp.ne'
      have hlarge : (2 : K) ^ p - 1 / 2 ^ p ≤ round p (s : K) := sub_le_round_of_lt (not_le.1 hsp)
      have hone : (1 : K) ≤ 2 ^ p := one_le_pow₀ one_le_two
      have hround : (0 : K) < round p (s : K) := by linarith only [hu, hone, hlarge]
      have hqpos : (0 : K) < n / round p (s : K) := div_pos hn' hround
      rw [ceil_eq_one_of_pos_le_one, ceil_eq_one_of_pos_le_one]
      · exact div_pos hn' hspos
      · rw [div_le_one hspos]
        exact_mod_cast (hnp.trans (not_le.1 hsp)).le
      · exact (mul_pos hqpos (sub_pos.2 hu)).trans_le (le_round p hqpos)
      · exact round_div_le_one hpos hnp hround hlarge

end Ceil
end Rounding
