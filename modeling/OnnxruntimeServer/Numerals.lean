import OnnxruntimeServer.SessionKeyWithOption

namespace OnnxruntimeServer
set_option autoImplicit true
open Regex Pattern

/-- The integer that an optional minus and digits denote. -/
def numeral (raw : Bytes) : Option Int :=
  let neg := raw.head? = some 0x2D
  let digits := if neg then raw.tail else raw
  if digits ≠ [] ∧ ∀ c ∈ digits, isDigit c = true then
    some (if neg then -decimal digits else decimal digits)
  else none

def fitsInt64 (n : Int) : Prop := -2 ^ 63 ≤ n ∧ n < 2 ^ 63

instance (n : Int) : Decidable (fitsInt64 n) := inferInstanceAs (Decidable (_ ∧ _))

theorem fitsInt64_toInt (i : Int64) : fitsInt64 i.toInt := ⟨i.le_toInt, i.toInt_lt⟩

theorem numeral_eq_some (h : numeral raw = some n) :
    (∃ c s, raw = c :: s ∧ isDigit c = true ∧ (∀ d ∈ s, isDigit d = true) ∧ n = decimal (c :: s)) ∨
      ∃ c s, raw = 0x2D :: c :: s ∧ isDigit c = true ∧ (∀ d ∈ s, isDigit d = true) ∧
        n = -decimal (c :: s) := by
  rw [numeral] at h
  cases raw with
  | nil => cases h
  | cons a raw =>
    by_cases ha : a = 0x2D
    · subst ha
      cases raw with
      | nil => cases h
      | cons c s =>
        simp only [List.head?_cons, if_true, List.tail_cons, List.forall_mem_cons] at h
        split at h
        · rename_i hdigits
          exact .inr ⟨c, s, rfl, hdigits.2.1, hdigits.2.2, (Option.some.inj h).symm⟩
        · cases h
    · simp only [List.head?_cons, Option.some.injEq, ha, if_false, List.forall_mem_cons] at h
      split at h
      · rename_i hdigits
        exact .inl ⟨a, raw, rfl, hdigits.2.1, hdigits.2.2, (Option.some.inj h).symm⟩
      · cases h

theorem isDigit_ne_minus (hc : isDigit c = true) : c ≠ 0x2D := by
  rintro rfl
  cases hc

theorem numeral_digits (hc : isDigit c = true) (hs : ∀ d ∈ s, isDigit d = true) :
    numeral (c :: s) = some ↑(decimal (c :: s)) := by
  have hhead : ¬ (c :: s).head? = some 0x2D := by simpa using isDigit_ne_minus hc
  rw [numeral, if_neg hhead, if_neg hhead, if_pos]
  exact ⟨List.cons_ne_nil c s, List.forall_mem_cons.2 ⟨hc, hs⟩⟩

theorem numeral_minus (hc : isDigit c = true) (hs : ∀ d ∈ s, isDigit d = true) :
    numeral (0x2D :: c :: s) = some (-(decimal (c :: s) : Int)) :=
  if_pos ⟨List.cons_ne_nil c s, List.forall_mem_cons.2 ⟨hc, hs⟩⟩

/-- What `int_re` matches are the numerals. -/
theorem intRe_full (raw : Bytes) : (intRe.full raw).isSome = (numeral raw).isSome := by
  rw [Bool.eq_iff_iff, full_isSome]
  constructor
  · rintro ⟨x, hx, hnil⟩
    obtain ⟨y, hy, z, hz, rfl⟩ := mem_run_seq.1 hx
    obtain ⟨c, s, hrest, hc, hs⟩ := word_reaches_end.1 ⟨z, hz, hnil⟩
    have hraw := mem_run hy
    rcases List.mem_append.1 hy with hy | hy
    · cases raw with
      | nil => cases hy
      | cons a raw =>
        rw [run] at hy
        split at hy
        · rename_i ha
          obtain rfl := List.mem_singleton.1 hy
          obtain rfl : raw = c :: s := hrest
          rw [beq_iff_eq.1 ha, numeral_minus hc hs]
          rfl
        · cases hy
    · obtain rfl := List.mem_singleton.1 hy
      obtain rfl : raw = c :: s := hrest
      rw [numeral_digits hc hs]
      rfl
  · intro h
    obtain ⟨n, hn⟩ := Option.isSome_iff_exists.1 h
    rcases numeral_eq_some hn with ⟨c, s, rfl, hc, hs, _⟩ | ⟨c, s, rfl, hc, hs, _⟩
    · obtain ⟨z, hz, hnil⟩ := word_reaches_end.2 ⟨c, s, rfl, hc, hs⟩
      refine ⟨_, mem_run_seq.2 ⟨(⟨[], []⟩, c :: s), ?_, z, hz, rfl⟩, hnil⟩
      exact List.mem_append_right _ (List.mem_singleton.2 rfl)
    · obtain ⟨z, hz, hnil⟩ := word_reaches_end.2 ⟨c, s, rfl, hc, hs⟩
      refine ⟨_, mem_run_seq.2 ⟨(⟨[0x2D], []⟩, c :: s), ?_, z, hz, rfl⟩, hnil⟩
      exact List.mem_append_left _ (List.mem_singleton.2 rfl)

theorem stoll_eq (h : numeral raw = some n) :
    stoll raw = if fitsInt64 n then some (.ofInt n) else none := by
  rcases numeral_eq_some h with ⟨c, s, rfl, hc, hs, rfl⟩ | ⟨c, s, rfl, hc, hs, rfl⟩
  · have hhead : ¬ (c :: s).head? = some 0x2D := by simpa using isDigit_ne_minus hc
    have htake : (c :: s).takeWhile isDigit = c :: s := by
      rw [List.takeWhile_eq_self_iff]
      exact List.forall_mem_cons.2 ⟨hc, hs⟩
    rw [stoll, if_neg hhead, htake, if_neg hhead]
    exact if_congr (and_iff_right (List.cons_ne_nil c s)) rfl rfl
  · have htake : (c :: s).takeWhile isDigit = c :: s := by
      rw [List.takeWhile_eq_self_iff]
      exact List.forall_mem_cons.2 ⟨hc, hs⟩
    have hhead : (0x2D :: c :: s).head? = some 0x2D := rfl
    rw [stoll, if_pos hhead, List.tail_cons, htake, if_pos hhead]
    exact if_congr (and_iff_right (List.cons_ne_nil c s)) rfl rfl

theorem inferValue_eq (raw : Bytes) : inferValue raw =
    if raw = ascii "true" then .boolean true
    else if raw = ascii "false" then .boolean false
    else match numeral raw with
      | some n => if fitsInt64 n then .integer (.ofInt n) else .string raw
      | none => .string raw := by
  rw [inferValue, intRe_full]
  congr 2
  cases h : numeral raw with
  | none => rfl
  | some n =>
    rw [Option.isSome_some, if_pos rfl, stoll_eq h]
    by_cases hn : fitsInt64 n
    · simp only [if_pos hn]
    · simp only [if_neg hn]

/-- Neither a boolean nor an integer in range. -/
def Plain (s : Bytes) : Prop :=
  s ≠ ascii "true" ∧ s ≠ ascii "false" ∧ ∀ n, numeral s = some n → ¬ fitsInt64 n

theorem inferValue_plain (h : Plain s) : inferValue s = .string s := by
  obtain ⟨htrue, hfalse, hrange⟩ := h
  rw [inferValue_eq, if_neg htrue, if_neg hfalse]
  cases hn : numeral s with
  | none => rfl
  | some n => exact if_neg (hrange n hn)

theorem inferValue_not_plain (h : ¬ Plain s) :
    (∃ b, inferValue s = .boolean b) ∨ ∃ i, inferValue s = .integer i := by
  rw [inferValue_eq]
  by_cases htrue : s = ascii "true"
  · exact .inl ⟨true, if_pos htrue⟩
  by_cases hfalse : s = ascii "false"
  · exact .inl ⟨false, by rw [if_neg htrue, if_pos hfalse]⟩
  rw [if_neg htrue, if_neg hfalse]
  cases hn : numeral s with
  | none =>
    refine absurd ⟨htrue, hfalse, ?_⟩ h
    intro n hs
    rw [hn] at hs
    cases hs
  | some n =>
    by_cases hfits : fitsInt64 n
    · exact .inr ⟨_, if_pos hfits⟩
    · refine absurd ⟨htrue, hfalse, ?_⟩ h
      intro m hs
      rw [hn] at hs
      rwa [← Option.some.inj hs]

theorem isDigit_digit {c : Char} (hc : c.isDigit = true) :
    isDigit (.ofNat c.toNat) = true ∧ (UInt8.ofNat c.toNat).toNat = c.toNat := by
  simp only [Char.isDigit, Bool.and_eq_true, decide_eq_true_eq, UInt32.le_iff_toNat_le] at hc
  have hlt : c.toNat % 2 ^ 8 = c.toNat := Nat.mod_eq_of_lt (lt_of_le_of_lt hc.2 (by decide))
  have htoNat : (UInt8.ofNat c.toNat).toNat = c.toNat := by
    rw [UInt8.toNat_ofNat', hlt]
  refine ⟨?_, htoNat⟩
  simp only [isDigit, Bool.and_eq_true, decide_eq_true_eq, UInt8.le_iff_toNat_le, htoNat]
  exact hc

theorem ascii_repr (n : Nat) :
    ∃ c s, ascii n.repr = c :: s ∧ isDigit c = true ∧ (∀ d ∈ s, isDigit d = true) ∧
      decimal (c :: s) = n := by
  have htext : ascii n.repr = (Nat.toDigits 10 n).map fun c => .ofNat c.toNat := by
    rw [ascii, Nat.toList_repr]
  have hdigits : ∀ c ∈ Nat.toDigits 10 n, c.isDigit = true :=
    fun c hc => Nat.isDigit_of_mem_toDigits (by decide) le_rfl hc
  have hvalue : decimal (ascii n.repr) = n := by
    have hdecimal : ∀ (l : List Char) (m : Nat), (∀ c ∈ l, c.isDigit = true) →
        (l.map fun c => UInt8.ofNat c.toNat).foldl (fun n c => 10 * n + (c.toNat - 0x30)) m =
          Nat.ofDigitChars 10 l m := by
      intro l m hl
      induction l generalizing m with
      | nil => rfl
      | cons c l ih =>
        rw [List.map_cons, List.foldl_cons, (isDigit_digit (hl c List.mem_cons_self)).2,
          Nat.ofDigitChars_cons, ih _ fun d hd => hl d (List.mem_cons_of_mem c hd)]
        rfl
    rw [htext, decimal, hdecimal _ _ hdigits, Nat.ofDigitChars_ten_toDigits]
  have hall : ∀ c ∈ ascii n.repr, isDigit c = true := by
    intro c hc
    rw [htext] at hc
    obtain ⟨d, hd, rfl⟩ := List.mem_map.1 hc
    exact (isDigit_digit (hdigits d hd)).1
  cases hrepr : ascii n.repr with
  | nil =>
    rw [htext, List.map_eq_nil_iff] at hrepr
    exact absurd hrepr Nat.toDigits_ne_nil
  | cons c s =>
    rw [hrepr] at hvalue hall
    rw [List.forall_mem_cons] at hall
    exact ⟨c, s, rfl, hall.1, hall.2, hvalue⟩

theorem numeral_toString (i : Int) : numeral (ascii (toString i)) = some i := by
  rw [Int.toString_eq_repr]
  cases i with
  | ofNat n =>
    obtain ⟨c, s, htext, hc, hs, hn⟩ := ascii_repr n
    have hrepr : ascii (Int.ofNat n).repr = ascii n.repr := rfl
    rw [hrepr, htext, numeral_digits hc hs, hn]
    rfl
  | negSucc n =>
    obtain ⟨c, s, htext, hc, hs, hn⟩ := ascii_repr (n + 1)
    have hrepr : ascii (Int.negSucc n).repr = 0x2D :: ascii (n + 1).repr := by
      simp [ascii, Int.repr]
    rw [hrepr, htext, numeral_minus hc hs, hn]
    rfl

end OnnxruntimeServer
