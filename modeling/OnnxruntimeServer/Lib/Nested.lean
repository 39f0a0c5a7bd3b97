import Mathlib

namespace Nested
set_option autoImplicit true

/-- The nodes reached after descending `k` levels from each of `xs`, left to right. -/
def descend (children : α → Option (List α)) : Nat → List α → List α
  | 0, xs => xs
  | k + 1, xs => descend children k (xs.flatMap fun x => (children x).getD [])

/-- Every node at level `i` has exactly `dims[i]` children, and the last level holds leaves. -/
def Rect (children : α → Option (List α)) : List Nat → α → Prop
  | [], x => children x = none
  | d :: ds, x => ∃ xs, children x = some xs ∧ xs.length = d ∧ ∀ y ∈ xs, Rect children ds y

/-- The node at the end of a path of child positions. -/
def follow (children : α → Option (List α)) : List Nat → α → Option α
  | [], x => some x
  | i :: is, x => (children x).bind fun xs => xs[i]?.bind (follow children is)

/-- The position of a multi-index in row-major order. -/
def rowMajor : List Nat → List Nat → Nat
  | _ :: ds, i :: is => i * ds.prod + rowMajor ds is
  | _, _ => 0

/-- A multi-index is in range when each of its components is below its dimension. -/
def InRange (is dims : List Nat) : Prop := List.Forall₂ (· < ·) is dims

variable {children : α → Option (List α)}

theorem descend_append (k : Nat) (xs ys : List α) :
    descend children k (xs ++ ys) = descend children k xs ++ descend children k ys := by
  induction k generalizing xs ys with
  | zero => rfl
  | succ k ih => simp only [descend, List.flatMap_append, ih]

theorem descend_eq_flatMap (k : Nat) (xs : List α) :
    descend children k xs = xs.flatMap fun x => descend children k [x] := by
  induction xs with
  | nil =>
    induction k with
    | zero => rfl
    | succ k ih => simpa only [descend, List.flatMap_nil] using ih
  | cons x xs ih =>
    rw [← List.singleton_append, descend_append, ih]
    simp only [List.singleton_append, List.flatMap_cons]

theorem descend_succ (k : Nat) (xs : List α) :
    descend children (k + 1) xs =
      (descend children k xs).flatMap fun x => (children x).getD [] := by
  induction k generalizing xs with
  | zero => rfl
  | succ k ih => rw [descend, ih, descend]

theorem descend_children (h : children x = some xs) (k : Nat) :
    descend children (k + 1) [x] = descend children k xs := by
  simp only [descend, List.flatMap_cons, List.flatMap_nil, List.append_nil, h, Option.getD_some]

theorem Rect.mem_descend (h : Rect children (ds ++ es) x)
    (hy : y ∈ descend children ds.length [x]) : Rect children es y := by
  induction ds generalizing x with
  | nil =>
    obtain rfl : y = x := by simpa [descend] using hy
    exact h
  | cons d ds ih =>
    obtain ⟨xs, hx, _, hxs⟩ := h
    rw [List.length_cons, descend_children hx, descend_eq_flatMap, List.mem_flatMap] at hy
    obtain ⟨z, hz, hyz⟩ := hy
    exact ih (hxs z hz) hyz

theorem length_flatMap_of_forall (f : α → List β) (n : Nat) (xs : List α)
    (h : ∀ x ∈ xs, (f x).length = n) : (xs.flatMap f).length = xs.length * n := by
  induction xs with
  | nil => simp
  | cons x xs ih =>
    have hx := h x (by simp)
    have hxs := ih fun y hy => h y (by simp [hy])
    simp only [List.flatMap_cons, List.length_append, hx, hxs, List.length_cons]
    ring

theorem getElem?_flatMap_of_forall (f : α → List β) (n : Nat) (xs : List α)
    (h : ∀ x ∈ xs, (f x).length = n) (i j : Nat) (hj : j < n) :
    (xs.flatMap f)[i * n + j]? = xs[i]?.bind fun x => (f x)[j]? := by
  induction xs generalizing i with
  | nil => simp
  | cons x xs ih =>
    have hx := h x (by simp)
    rw [List.flatMap_cons]
    cases i with
    | zero =>
      rw [List.getElem?_append_left (by omega)]
      simp
    | succ i =>
      have hs : (i + 1) * n = n + i * n := by ring
      rw [List.getElem?_append_right (by omega), hx,
        show (i + 1) * n + j - n = i * n + j by omega,
        ih (fun y hy => h y (by simp [hy]))]
      simp

theorem Rect.length_descend (h : Rect children ds x) :
    (descend children ds.length [x]).length = ds.prod := by
  induction ds generalizing x with
  | nil => rfl
  | cons d ds ih =>
    obtain ⟨xs, hx, hl, hxs⟩ := h
    rw [List.length_cons, descend_children hx, descend_eq_flatMap,
      length_flatMap_of_forall _ ds.prod _ fun y hy => ih (hxs y hy), hl, List.prod_cons]

theorem rowMajor_lt (h : InRange is ds) : rowMajor ds is < ds.prod := by
  induction h with
  | nil => simp [rowMajor]
  | @cons i d is ds hi _ ih =>
    rw [rowMajor, List.prod_cons]
    calc i * ds.prod + rowMajor ds is < i * ds.prod + ds.prod := by omega
      _ = (i + 1) * ds.prod := by ring
      _ ≤ d * ds.prod := Nat.mul_le_mul_right _ hi

/-- The leaves of a rectangular node stand in row-major order. -/
theorem Rect.getElem_descend (h : Rect children ds x) (hi : InRange is ds) :
    (descend children ds.length [x])[rowMajor ds is]? = follow children is x := by
  induction hi generalizing x with
  | nil => simp [descend, rowMajor, follow]
  | @cons i d is ds hd his ih =>
    obtain ⟨xs, hx, hl, hxs⟩ := h
    rw [List.length_cons, descend_children hx, descend_eq_flatMap, rowMajor,
      getElem?_flatMap_of_forall _ ds.prod _ (fun y hy => (hxs y hy).length_descend) _ _
        (rowMajor_lt his)]
    simp only [follow, hx, Option.bind_some]
    cases hy : xs[i]? with
    | none => rfl
    | some y => exact ih (hxs y (List.mem_of_getElem? hy))

theorem InRange.append_ones (h : InRange is (ds ++ List.replicate k 1)) :
    ∃ js, is = js ++ List.replicate k 0 ∧ InRange js ds := by
  induction ds generalizing is with
  | nil =>
    refine ⟨[], ?_, .nil⟩
    rw [List.nil_append] at h ⊢
    have hl : is.length = k := by simpa using List.Forall₂.length_eq h
    refine List.eq_replicate_iff.2 ⟨hl, fun i hi => ?_⟩
    obtain ⟨n, hn, rfl⟩ := List.getElem_of_mem hi
    have := List.Forall₂.get h hn (by simpa using hl ▸ hn)
    simpa using this
  | cons d ds ih =>
    cases h with
    | cons hi his =>
      obtain ⟨js, rfl, hjs⟩ := ih his
      exact ⟨_ :: js, rfl, .cons hi hjs⟩

theorem rowMajor_append_ones (h : InRange is ds) (k : Nat) :
    rowMajor (ds ++ List.replicate k 1) (is ++ List.replicate k 0) = rowMajor ds is := by
  induction h with
  | nil =>
    induction k with
    | zero => rfl
    | succ k ih =>
      simp only [List.nil_append] at ih
      simp only [List.nil_append, List.replicate_succ, rowMajor, ih, Nat.zero_mul, Nat.zero_add]
  | cons hi his ih => simp [rowMajor, ih]

theorem Rect.follow_leaf (h : Rect children ds x) (hi : InRange is ds) :
    ∃ y, follow children is x = some y ∧ children y = none := by
  induction hi generalizing x with
  | nil => exact ⟨x, rfl, h⟩
  | @cons i d is ds hd his ih =>
    obtain ⟨xs, hx, hl, hxs⟩ := h
    have hi : i < xs.length := by omega
    have hy : xs[i]? = some xs[i] := List.getElem?_eq_getElem hi
    obtain ⟨z, hz, hl⟩ := ih (hxs _ (List.getElem_mem _))
    exact ⟨z, by simp only [follow, hx, Option.bind_some, hy]; exact hz, hl⟩

theorem exists_rect {node : List α → α} (hnode : ∀ xs, children (node xs) = some xs)
    {values : List α} (hv : ∀ v ∈ values, children v = none) (hl : values.length = ds.prod) :
    ∃ x, Rect children ds x ∧ descend children ds.length [x] = values := by
  induction ds generalizing values with
  | nil =>
    obtain ⟨v, rfl⟩ := List.length_eq_one_iff.1 hl
    exact ⟨v, hv v (by simp), rfl⟩
  | cons d ds ih =>
    have hrows : ∃ xs, xs.length = d ∧ (∀ x ∈ xs, Rect children ds x) ∧
        descend children ds.length xs = values := by
      rw [List.prod_cons] at hl
      clear hnode
      induction d generalizing values with
      | zero =>
        rw [Nat.zero_mul] at hl
        obtain rfl := List.length_eq_zero_iff.1 hl
        exact ⟨[], rfl, by simp, by rw [descend_eq_flatMap, List.flatMap_nil]⟩
      | succ d ihd =>
        rw [Nat.succ_mul] at hl
        have htake : (values.take ds.prod).length = ds.prod := by
          rw [List.length_take]
          omega
        have hdrop : (values.drop ds.prod).length = d * ds.prod := by
          rw [List.length_drop]
          omega
        obtain ⟨x, hx, hleaves⟩ := ih (fun v h => hv v (List.mem_of_mem_take h)) htake
        obtain ⟨xs, hlen, hxs, hrest⟩ := ihd (fun v h => hv v (List.mem_of_mem_drop h)) hdrop
        refine ⟨x :: xs, by rw [List.length_cons, hlen], ?_, ?_⟩
        · intro y hy
          rcases List.mem_cons.1 hy with rfl | hy
          · exact hx
          · exact hxs y hy
        · rw [← List.singleton_append, descend_append, hleaves, hrest, List.take_append_drop]
    obtain ⟨xs, hlen, hxs, hleaves⟩ := hrows
    refine ⟨node xs, ⟨xs, hnode xs, hlen, hxs⟩, ?_⟩
    rw [List.length_cons, descend_children (hnode xs), hleaves]

end Nested
