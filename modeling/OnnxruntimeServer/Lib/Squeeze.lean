import Mathlib

namespace OnnxruntimeServer
set_option autoImplicit true
namespace Squeeze

/-- Every run of the elements that `p` holds of becomes one separator. -/
def squeeze [DecidableEq α] (p : α → Bool) (sep : α) : List α → List α
  | [] => []
  | a :: s =>
    if p a then
      if (squeeze p sep s).head? = some sep then squeeze p sep s else sep :: squeeze p sep s
    else a :: squeeze p sep s

def strip (p : α → Bool) (s : List α) : List α := (s.dropWhile p).rdropWhile p

def tidy [DecidableEq α] (p : α → Bool) (sep : α) (s : List α) : List α := strip p (squeeze p sep s)

/-- Words with single separators between them. -/
inductive Spaced (p : α → Bool) (sep : α) : List α → Prop where
  | word : w ≠ [] → (∀ a ∈ w, p a = false) → Spaced p sep w
  | more : w ≠ [] → (∀ a ∈ w, p a = false) → Spaced p sep s → Spaced p sep (w ++ sep :: s)

variable {p : α → Bool} {s t : List α} {sep : α}

theorem rdropWhile_append (p : α → Bool) (s t : List α) :
    (s ++ t).rdropWhile p = if t.rdropWhile p = [] then s.rdropWhile p else s ++ t.rdropWhile p := by
  rw [List.rdropWhile, List.reverse_append, List.dropWhile_append]
  by_cases h : t.rdropWhile p = []
  · rw [if_pos h, List.rdropWhile, if_pos]
    rw [List.rdropWhile, List.reverse_eq_nil_iff] at h
    rw [h]
    rfl
  · rw [if_neg h, if_neg]
    · rw [List.reverse_append, List.reverse_reverse]
      rfl
    · rw [List.rdropWhile, List.reverse_eq_nil_iff] at h
      simpa using h

theorem rdropWhile_cons_of_neg (ha : ¬ p a = true) (s : List α) :
    (a :: s).rdropWhile p = a :: s.rdropWhile p := by
  have happend := rdropWhile_append p [a] s
  rw [List.singleton_append, List.rdropWhile_singleton, if_neg ha] at happend
  rw [happend]
  split
  · rename_i h
    rw [h]
  · rfl

theorem rdropWhile_cons_of_pos (ha : p a = true) (s : List α) :
    (a :: s).rdropWhile p = if s.rdropWhile p = [] then [] else a :: s.rdropWhile p := by
  have happend := rdropWhile_append p [a] s
  rwa [List.singleton_append, List.rdropWhile_singleton, if_pos ha] at happend

theorem dropWhile_rdropWhile (p : α → Bool) (s : List α) :
    (s.rdropWhile p).dropWhile p = strip p s := by
  rw [strip]
  induction s with
  | nil => rfl
  | cons a s ih =>
    by_cases ha : p a = true
    · rw [List.dropWhile_cons_of_pos ha, rdropWhile_cons_of_pos ha, ← ih]
      split
      · rename_i h
        rw [h]
      · rw [List.dropWhile_cons_of_pos ha]
    · rw [List.dropWhile_cons_of_neg ha, rdropWhile_cons_of_neg ha, List.dropWhile_cons_of_neg ha]

theorem filter_strip (p : α → Bool) (s : List α) :
    (strip p s).filter (fun a => !p a) = s.filter fun a => !p a := by
  have hr : ∀ s : List α, (s.rdropWhile p).filter (fun a => !p a) = s.filter fun a => !p a := by
    intro s
    induction s with
    | nil => rfl
    | cons a s ih =>
      by_cases ha : p a = true
      · rw [rdropWhile_cons_of_pos ha]
        split
        · rename_i h
          rw [h] at ih
          simpa [ha] using ih
        · simpa [ha] using ih
      · rw [rdropWhile_cons_of_neg ha]
        simpa [ha] using ih
  rw [strip, hr]
  induction s with
  | nil => rfl
  | cons a s ih =>
    by_cases ha : p a = true
    · rw [List.dropWhile_cons_of_pos ha, ih]
      simp [ha]
    · rw [List.dropWhile_cons_of_neg ha]

theorem Spaced.ne_nil (h : Spaced p sep s) : s ≠ [] := by
  cases h with
  | word hw _ => exact hw
  | more hw _ _ => exact List.append_ne_nil_of_left_ne_nil hw _

theorem Spaced.append_sep (hs : Spaced p sep s) (ht : Spaced p sep t) :
    Spaced p sep (s ++ sep :: t) := by
  induction hs with
  | word hw ha => exact .more hw ha ht
  | more hw ha _ ih =>
    rw [List.append_assoc]
    exact .more hw ha ih

theorem Spaced.append_word (hs : Spaced p sep s) (ha : ∀ a ∈ t, p a = false) :
    Spaced p sep (s ++ t) := by
  induction hs with
  | word hw hwa =>
    apply Spaced.word (List.append_ne_nil_of_left_ne_nil hw t)
    intro a hmem
    exact (List.mem_append.1 hmem).elim (hwa a) (ha a)
  | more hw hwa _ ih =>
    rw [List.append_assoc]
    exact .more hw hwa ih

theorem Spaced.word_append (ha : ∀ a ∈ t, p a = false) (hs : Spaced p sep s) :
    Spaced p sep (t ++ s) := by
  cases hs with
  | word hw hwa =>
    apply Spaced.word (List.append_ne_nil_of_right_ne_nil t hw)
    intro a hmem
    exact (List.mem_append.1 hmem).elim (ha a) (hwa a)
  | more hw hwa hs =>
    rw [← List.append_assoc]
    apply Spaced.more (List.append_ne_nil_of_right_ne_nil t hw) _ hs
    intro a hmem
    exact (List.mem_append.1 hmem).elim (ha a) (hwa a)

variable [DecidableEq α]

theorem squeeze_cons_of_neg (ha : ¬ p a = true) (sep : α) (s : List α) :
    squeeze p sep (a :: s) = a :: squeeze p sep s := by
  rw [squeeze, if_neg ha]

theorem squeeze_cons_of_pos (hsep : p sep = true) (ha : p a = true) (s : List α) :
    squeeze p sep (a :: s) = sep :: (squeeze p sep s).dropWhile p := by
  induction s generalizing a with
  | nil => simp [squeeze, ha]
  | cons b s ih =>
    rw [squeeze, if_pos ha]
    by_cases hb : p b = true
    · rw [ih hb, List.head?_cons, if_pos rfl, List.dropWhile_cons_of_pos hsep,
        List.dropWhile_idempotent]
    · have hne : ¬ b = sep := by
        rintro rfl
        exact hb hsep
      rw [squeeze_cons_of_neg hb, List.dropWhile_cons_of_neg hb, List.head?_cons, if_neg]
      simpa using hne

theorem filter_squeeze (hsep : p sep = true) (s : List α) :
    (squeeze p sep s).filter (fun a => !p a) = s.filter fun a => !p a := by
  induction s with
  | nil => rfl
  | cons a s ih =>
    by_cases ha : p a = true
    · rw [squeeze, if_pos ha]
      split <;> simp [ha, hsep, ih]
    · rw [squeeze_cons_of_neg ha]
      simp [ha, ih]

theorem squeeze_of_all (h : ∀ a ∈ s, p a = false) (sep : α) : squeeze p sep s = s := by
  induction s with
  | nil => rfl
  | cons a s ih =>
    rw [squeeze_cons_of_neg (by simp [h a]), ih fun b hb => h b (List.mem_cons_of_mem a hb)]

theorem squeeze_append (hsep : p sep = true) (ha : p a = true) (s t : List α) :
    squeeze p sep (s ++ a :: t) =
      (squeeze p sep s).rdropWhile p ++ sep :: (squeeze p sep t).dropWhile p := by
  induction s with
  | nil => exact squeeze_cons_of_pos hsep ha t
  | cons b s ih =>
    rw [List.cons_append]
    by_cases hb : p b = true
    · rw [squeeze_cons_of_pos hsep hb, squeeze_cons_of_pos hsep hb, ih, List.dropWhile_append,
        dropWhile_rdropWhile, rdropWhile_cons_of_pos hsep, ← strip]
      by_cases hs : strip p (squeeze p sep s) = []
      · rw [if_pos hs, if_pos (by rw [hs]; rfl), List.dropWhile_cons_of_pos hsep,
          List.dropWhile_idempotent]
        rfl
      · rw [if_neg hs, if_neg (by simpa using hs)]
        rfl
    · rw [squeeze_cons_of_neg hb, squeeze_cons_of_neg hb, rdropWhile_cons_of_neg hb, ih]
      rfl

theorem filter_tidy (hsep : p sep = true) (s : List α) :
    (tidy p sep s).filter (fun a => !p a) = s.filter fun a => !p a := by
  rw [tidy, filter_strip, filter_squeeze hsep]

theorem tidy_of_all (h : ∀ a ∈ s, p a = false) (sep : α) : tidy p sep s = s := by
  rw [tidy, squeeze_of_all h, strip]
  have hdrop : s.dropWhile p = s := by
    cases s with
    | nil => rfl
    | cons a s => rw [List.dropWhile_cons_of_neg (by simp [h a])]
  rw [hdrop, List.rdropWhile_eq_self_iff]
  intro hl
  simp [h _ (List.getLast_mem hl)]

theorem tidy_eq_nil (hsep : p sep = true) : tidy p sep s = [] ↔ ∀ a ∈ s, p a = true := by
  constructor
  · intro h
    have hfilter := filter_tidy hsep s
    rw [h, List.filter_nil, eq_comm, List.filter_eq_nil_iff] at hfilter
    simpa using hfilter
  · intro h
    rw [tidy, strip, List.rdropWhile_eq_nil_iff]
    have hall : ∀ a ∈ squeeze p sep s, p a = true := by
      have hfilter := filter_squeeze hsep s
      have hnil : s.filter (fun a => !p a) = [] := by simpa using h
      rw [hnil, List.filter_eq_nil_iff] at hfilter
      simpa using hfilter
    intro a ha
    exact hall a ((List.dropWhile_suffix p).subset ha)

/-- What is separated is tidied on its own. -/
theorem tidy_append (hsep : p sep = true) (ha : p a = true) (s t : List α) :
    tidy p sep (s ++ a :: t) =
      if tidy p sep s = [] then tidy p sep t
      else if tidy p sep t = [] then tidy p sep s
      else tidy p sep s ++ sep :: tidy p sep t := by
  have hcons : (sep :: (squeeze p sep t).dropWhile p).rdropWhile p =
      if tidy p sep t = [] then [] else sep :: tidy p sep t := rdropWhile_cons_of_pos hsep _
  rw [tidy, squeeze_append hsep ha, strip, List.dropWhile_append, dropWhile_rdropWhile, ← tidy]
  by_cases hs : tidy p sep s = []
  · rw [if_pos hs, if_pos (by rw [hs]; rfl), List.dropWhile_cons_of_pos hsep,
      List.dropWhile_idempotent]
    rfl
  · rw [if_neg hs, if_neg (by simpa using hs), rdropWhile_append, hcons]
    by_cases ht : tidy p sep t = []
    · rw [if_pos ht, if_pos rfl, if_pos ht]
      exact List.rdropWhile_idempotent ..
    · rw [if_neg ht, if_neg (List.cons_ne_nil _ _), if_neg ht]

theorem Spaced.tidy_eq (hsep : p sep = true) (h : Spaced p sep s) : tidy p sep s = s := by
  induction h with
  | word _ ha => exact tidy_of_all ha sep
  | more hw ha hs ih => rw [tidy_append hsep hsep, ih, tidy_of_all ha, if_neg hw, if_neg hs.ne_nil]

end Squeeze
end OnnxruntimeServer
