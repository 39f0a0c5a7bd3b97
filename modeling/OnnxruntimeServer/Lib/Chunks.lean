import Mathlib

namespace Chunks
set_option autoImplicit true

/-- One read of at most `n` bytes: a part of the first chunk. The rest of it stays readable. -/
def readSome (n : Nat) : List (List α) → List α × List (List α)
  | [] => ([], [])
  | c :: cs => (c.take n, if n < c.length then c.drop n :: cs else cs)

/-- The stream after its next `n` bytes. -/
def advance : Nat → List (List α) → List (List α)
  | _, [] => []
  | n, c :: cs => if n < c.length then c.drop n :: cs else advance (n - c.length) cs

/-- A chunk of the stream ends `n` bytes from here. -/
def Cut (cs : List (List α)) (n : Nat) : Prop := ∃ i, (cs.take i).flatten.length = n

theorem flatten_advance (n : Nat) (cs : List (List α)) :
    (advance n cs).flatten = cs.flatten.drop n := by
  induction cs generalizing n with
  | nil => simp [advance]
  | cons c cs ih =>
    rw [advance, List.flatten_cons, List.drop_append]
    split_ifs with h
    · rw [List.flatten_cons, Nat.sub_eq_zero_of_le h.le, List.drop_zero]
    · rw [ih, List.drop_eq_nil_of_le (not_lt.1 h), List.nil_append]

theorem nonempty_advance (h : ∀ c ∈ cs, c ≠ []) (n : Nat) : ∀ c ∈ advance n cs, c ≠ [] := by
  induction cs generalizing n with
  | nil => simp [advance]
  | cons c cs ih =>
    rw [advance]
    split_ifs with hn
    · intro d hd
      rcases List.mem_cons.1 hd with rfl | hd
      · exact List.ne_nil_of_length_pos (by rw [List.length_drop]; omega)
      · exact h d (List.mem_cons_of_mem _ hd)
    · exact ih (fun d hd => h d (List.mem_cons_of_mem _ hd)) _

theorem advance_zero (h : ∀ c ∈ cs, c ≠ []) : advance 0 cs = cs := by
  cases cs with
  | nil => rfl
  | cons c cs =>
    have hc := List.length_pos_of_ne_nil (h c List.mem_cons_self)
    rw [advance, if_pos hc, List.drop_zero]

theorem advance_add (m n : Nat) (cs : List (List α)) :
    advance m (advance n cs) = advance (n + m) cs := by
  induction cs generalizing n with
  | nil => rfl
  | cons c cs ih =>
    by_cases hn : n < c.length
    · rw [advance, if_pos hn, advance, advance, List.length_drop]
      by_cases hm : n + m < c.length
      · rw [if_pos hm, if_pos (by omega), List.drop_drop]
      · rw [if_neg hm, if_neg (by omega), show m - (c.length - n) = n + m - c.length by omega]
    · rw [advance, if_neg hn, ih, advance, if_neg (by omega),
        show n - c.length + m = n + m - c.length by omega]

theorem cut_zero (cs : List (List α)) : Cut cs 0 := ⟨0, rfl⟩

theorem cut_cons : Cut (c :: cs) n ↔ n = 0 ∨ (c.length ≤ n ∧ Cut cs (n - c.length)) := by
  constructor
  · rintro ⟨i, hi⟩
    cases i with
    | zero => exact .inl (by simpa using hi.symm)
    | succ i =>
      simp only [List.take_succ_cons, List.flatten_cons, List.length_append] at hi
      exact .inr ⟨by omega, i, by omega⟩
  · rintro (rfl | ⟨hn, i, hi⟩)
    · exact cut_zero _
    · refine ⟨i + 1, ?_⟩
      simp only [List.take_succ_cons, List.flatten_cons, List.length_append]
      omega

theorem cut_advance (hk : 0 < k) : Cut (advance n cs) k ↔ Cut cs (n + k) := by
  induction cs generalizing n with
  | nil =>
    simp only [advance, Cut, List.take_nil, List.flatten_nil, List.length_nil, exists_const]
    omega
  | cons c cs ih =>
    rw [advance, cut_cons (c := c)]
    split_ifs with hn
    · rw [cut_cons, List.length_drop, show k - (c.length - n) = n + k - c.length by omega]
      constructor
      · rintro (h | ⟨h, hc⟩)
        · omega
        · exact .inr ⟨by omega, hc⟩
      · rintro (h | ⟨h, hc⟩)
        · omega
        · exact .inr ⟨by omega, hc⟩
    · rw [ih, show n - c.length + k = n + k - c.length by omega]
      constructor
      · exact fun h => .inr ⟨by omega, h⟩
      · rintro (h | ⟨_, h⟩)
        · omega
        · exact h

/-- The first chunk covers the next `n` bytes exactly when no chunk ends inside them. -/
theorem le_length_head_iff (hc : c ≠ []) :
    n ≤ c.length ↔ ∀ k, 0 < k → k < n → ¬ Cut (c :: cs) k := by
  constructor
  · intro h k hk hkn hcut
    rcases cut_cons.1 hcut with h₀ | ⟨h₀, _⟩ <;> omega
  · intro h
    by_contra hn
    apply h c.length (List.length_pos_of_ne_nil hc) (not_le.1 hn)
    exact ⟨1, by simp⟩

theorem readSome_length_le (n : Nat) (cs : List (List α)) : (readSome n cs).1.length ≤ n := by
  cases cs with
  | nil => exact Nat.zero_le n
  | cons c cs => exact List.length_take_le n c

theorem readSome_full_iff (hc : c ≠ []) :
    (readSome n (c :: cs)).1.length = n ↔ ∀ k, 0 < k → k < n → ¬ Cut (c :: cs) k := by
  rw [← le_length_head_iff hc, readSome, List.length_take, min_eq_left_iff]

theorem readSome_cons_length (hn : 0 < n) (hc : c ≠ []) :
    0 < (readSome n (c :: cs)).1.length := by
  have h := List.length_pos_of_ne_nil hc
  simp only [readSome, List.length_take]
  omega

theorem readSome_snd (h : ∀ c ∈ cs, c ≠ []) (n : Nat) :
    (readSome n cs).2 = advance (readSome n cs).1.length cs := by
  cases cs with
  | nil => rfl
  | cons c cs =>
    simp only [readSome, List.length_take, advance]
    by_cases hn : n < c.length
    · rw [if_pos hn, Nat.min_eq_left hn.le, if_pos hn]
    · rw [if_neg hn, Nat.min_eq_right (not_lt.1 hn), if_neg (lt_irrefl _), Nat.sub_self,
        advance_zero fun d hd => h d (List.mem_cons_of_mem _ hd)]

theorem readSome_fst (n : Nat) (cs : List (List α)) :
    (readSome n cs).1 = cs.flatten.take (readSome n cs).1.length := by
  cases cs with
  | nil => rfl
  | cons c cs =>
    simp only [readSome, List.flatten_cons]
    rw [List.take_append_of_le_length (List.length_take_le' n c), List.length_take,
      List.take_eq_take_min]

theorem readSome_append (n : Nat) (cs : List (List α)) :
    (readSome n cs).1 ++ (readSome n cs).2.flatten = cs.flatten := by
  cases cs with
  | nil => rfl
  | cons c cs =>
    simp only [readSome, List.flatten_cons]
    split_ifs with hn
    · rw [List.flatten_cons, ← List.append_assoc, List.take_append_drop]
    · rw [List.take_of_length_le (not_lt.1 hn)]

end Chunks
