import OnnxruntimeServer.BatchedShape
import OnnxruntimeServer.Lib.Rounding

namespace OnnxruntimeServer
set_option autoImplicit true

/-- `(double)` of a number. The exponents of `int64_t` values and of their quotients are all within
the range of the type. -/
def toDouble (x : ℚ) : ℚ := Rounding.round 53 x

/-- `(int64_t)` of an integral `double`. One out of range has no defined conversion, and x86 gives
the smallest `int64_t`. -/
def int64OfDouble (x : Int) : Int := if -2 ^ 63 ≤ x ∧ x < 2 ^ 63 then x else -2 ^ 63

/-- The step of `batched_shape` as the code computes it: two conversions and a division, each of
them rounded. -/
def batchStepDouble (batch s : Int) : Int :=
  if s = 0 then if batch ≤ 0 then 1 else -2 ^ 63
  else int64OfDouble (max 1 ⌈toDouble (toDouble batch / toDouble s)⌉)

def batchedShapeDouble (shape : List Int) (value_count : Nat) : List Int :=
  if shape.contains (-1) then
    replaceFirst
      (shape.foldl (fun batch s => if s ≠ -1 then batchStepDouble batch s else batch) value_count)
      shape
  else shape

/-- The batch that `n` values make up where the other dimensions are `others`. -/
def requiredBatch (others : List Int) (n : Nat) : Int :=
  if others = [] then n else max 1 ⌈(n : ℚ) / others.prod⌉

/-- Below `2 ^ 53` the step in `double` is the step in integers, however large the dimension. -/
theorem batchStepDouble_natCast (hn : n < 2 ^ 53) (hs : 0 < s) :
    batchStepDouble (n : Nat) (s : Nat) = (max 1 (n ⌈/⌉ s) : Nat) := by
  have hceil : ⌈toDouble (toDouble ((n : Nat) : Int) / toDouble ((s : Nat) : Int))⌉ =
      ((n ⌈/⌉ s : Nat) : Int) := by
    rw [toDouble, toDouble, toDouble, Rounding.ceil_round_div_round (by decide) (by omega)
      (by exact_mod_cast hn) (by omega), ← ceilDiv_natCast n hs,
      Int.fdiv_eq_ediv_of_nonneg _ (by omega), Int.cast_natCast, Int.cast_natCast,
      Rat.ceil_natCast_div_natCast]
  have hle : n ⌈/⌉ s ≤ n := by
    rw [ceilDiv_le_iff_le_mul hs]
    exact Nat.le_mul_of_pos_left n hs
  rw [batchStepDouble, if_neg (by omega), hceil, int64OfDouble, Nat.cast_max, Nat.cast_one,
    if_pos (by omega)]

theorem batchLoopDouble_eq {shape : List Int} (hpos : ∀ s ∈ shape, s ≠ -1 → 0 < s)
    (hn : n < 2 ^ 53) :
    shape.foldl (fun batch s => if s ≠ -1 then batchStepDouble batch s else batch) (n : Nat) =
      batchLoop n shape := by
  rw [batchLoop]
  induction shape generalizing n with
  | nil => rfl
  | cons s shape ih =>
    have hshape : ∀ s ∈ shape, s ≠ -1 → 0 < s := fun s hs => hpos s (by simp [hs])
    rw [List.foldl_cons, List.foldl_cons]
    by_cases hs : s = -1
    · rw [if_neg (not_not.2 hs), if_neg (not_not.2 hs)]
      exact ih hshape hn
    · obtain ⟨d, rfl⟩ := Int.eq_ofNat_of_zero_le (hpos s (by simp) hs).le
      have hd : 0 < d := by exact_mod_cast hpos d (by simp) hs
      have hle : n ⌈/⌉ d ≤ n := by
        rw [ceilDiv_le_iff_le_mul hd]
        exact Nat.le_mul_of_pos_left n hd
      rw [if_pos hs, if_pos hs, batchStepDouble_natCast hn hd, batchStep_natCast n hd]
      exact ih hshape (max_lt (by decide) (hle.trans_lt hn))

/-- Where the integers are small enough, `batchedShape` is what the code computes. -/
theorem batchedShapeDouble_eq {shape : List Int} (hpos : ∀ s ∈ shape, s ≠ -1 → 0 < s)
    (hn : n < 2 ^ 53) : batchedShapeDouble shape n = batchedShape shape n := by
  rw [batchedShapeDouble, batchedShape, batchLoopDouble_eq hpos hn]
  rfl

theorem natCast_dims {others : List Int} (hpos : ∀ s ∈ others, 0 < s) :
    ∃ dims : List Nat, others = dims.map Nat.cast ∧ ∀ d ∈ dims, 1 ≤ d := by
  refine ⟨others.map Int.toNat, ?_, ?_⟩
  · rw [List.map_map]
    refine (List.map_id others).symm.trans (List.map_congr_left ?_)
    intro s hs
    exact (Int.toNat_of_nonneg (hpos s hs).le).symm
  · intro d hd
    obtain ⟨s, hs, rfl⟩ := List.mem_map.1 hd
    have := hpos s hs
    omega

theorem batchOf_eq {dims : List Nat} (hd : ∀ d ∈ dims, 1 ≤ d) (n : Nat) :
    (batchOf n dims : Int) = requiredBatch (dims.map Nat.cast) n := by
  rw [batchOf, requiredBatch]
  by_cases h : dims = []
  · rw [if_pos h, if_pos (by simp [h])]
  · have hprod : 0 < dims.prod := List.prod_pos hd
    have hcast : ((dims.map Nat.cast).prod : Int) = dims.prod := (Nat.cast_list_prod dims).symm
    rw [if_neg h, if_neg (by simpa using h), hcast, Int.cast_natCast, Rat.ceil_natCast_div_natCast,
      Nat.cast_max, Nat.cast_one, ← ceilDiv_natCast n hprod,
      Int.fdiv_eq_ediv_of_nonneg _ (by omega)]

theorem requiredBatch_perm (h : others.Perm others') (n : Nat) :
    requiredBatch others n = requiredBatch others' n := by
  rw [requiredBatch, requiredBatch, h.prod_eq]
  by_cases hnil : others = []
  · rw [if_pos hnil, if_pos (by rw [hnil] at h; exact List.nil_perm.1 h)]
  · rw [if_neg hnil, if_neg (fun h' => hnil (by rw [h'] at h; exact List.perm_nil.1 h))]

theorem batchedShapeDouble_of_count {shape : List Int} (hopen : shape.count (-1) = 1)
    (hpos : ∀ s ∈ shape, s ≠ -1 → 0 < s) (hn : n < 2 ^ 53) :
    batchedShapeDouble shape n =
      shape.map fun s => if s = -1 then requiredBatch (shape.filter (· ≠ -1)) n else s := by
  have hmem : -1 ∈ shape := List.count_pos_iff.1 (by omega)
  obtain ⟨before, after, rfl, hb⟩ := List.eq_append_cons_of_mem hmem
  have ha : -1 ∉ after := by
    rw [List.count_append, List.count_cons_self, List.count_eq_zero.2 hb] at hopen
    exact List.count_eq_zero.1 (by omega)
  have hkeep : ∀ {xs : List Int}, -1 ∉ xs → xs.filter (· ≠ -1) = xs := by
    intro xs hxs
    apply List.filter_eq_self.2
    intro s hs
    simpa using ne_of_mem_of_not_mem hs hxs
  have hsame : ∀ (b : Int) {xs : List Int}, -1 ∉ xs →
      xs.map (fun s => if s = -1 then b else s) = xs := by
    intro b xs hxs
    refine (List.map_congr_left ?_).trans (List.map_id xs)
    intro s hs
    exact if_neg (ne_of_mem_of_not_mem hs hxs)
  have hothers : (before ++ -1 :: after).filter (· ≠ -1) = before ++ after := by
    rw [List.filter_append, List.filter_cons_of_neg (by simp), hkeep hb, hkeep ha]
  have hbefore : ∀ s ∈ before ++ after, 0 < s := by
    intro s hs
    have hne : s ≠ -1 := by
      rintro rfl
      exact (List.mem_append.1 hs).elim hb ha
    apply hpos s _ hne
    simp only [List.mem_append, List.mem_cons] at hs ⊢
    exact hs.imp_right .inr
  obtain ⟨dims, hdims, hd⟩ := natCast_dims hbefore
  obtain ⟨before', after', rfl, rfl, rfl⟩ := List.append_eq_map_iff.1 hdims
  rw [batchedShapeDouble_eq hpos hn, batchedShape_open hb, batchLoop_open hd, batchOf_eq hd,
    hothers, ← hdims, List.map_append, List.map_cons, if_pos rfl, hsame _ hb, hsame _ ha]

theorem requiredBatch_isLeast {others : List Int} {n : Nat} (hpos : ∀ s ∈ others, 0 < s)
    (hn : 1 ≤ n) : IsLeast {b : Int | (n : Int) ≤ b * others.prod} (requiredBatch others n) := by
  have hprod : 0 < others.prod := List.prod_pos hpos
  have hprod' : (0 : ℚ) < others.prod := by exact_mod_cast hprod
  have hceil : ∀ b : Int, ⌈(n : ℚ) / others.prod⌉ ≤ b ↔ (n : Int) ≤ b * others.prod := by
    intro b
    rw [Int.ceil_le, div_le_iff₀ hprod']
    exact_mod_cast Iff.rfl
  have heq : requiredBatch others n = ⌈(n : ℚ) / others.prod⌉ := by
    rw [requiredBatch]
    by_cases h : others = []
    · rw [if_pos h, h, List.prod_nil, Int.cast_one, div_one, Int.ceil_natCast]
    · have hone : 1 ≤ ⌈(n : ℚ) / others.prod⌉ := by
        apply Int.one_le_ceil_iff.2
        apply div_pos _ hprod'
        exact_mod_cast hn
      rw [if_neg h, max_eq_right hone]
  rw [heq]
  constructor
  · exact (hceil _).1 le_rfl
  · intro b hb
    exact (hceil b).2 hb

/-- `batched_shape` puts the least sufficient batch in the place of the open dimension, and no order
of the dimensions changes it. -/
theorem batchedShapeDouble_least {shape : List Int} (hopen : shape.count (-1) = 1)
    (hpos : ∀ s ∈ shape, s ≠ -1 → 0 < s) (hn : n < 2 ^ 53) :
    batchedShapeDouble shape n =
        (shape.map fun s => if s = -1 then requiredBatch (shape.filter (· ≠ -1)) n else s) ∧
      (1 ≤ n → IsLeast {b : Int | (n : Int) ≤ b * (shape.filter (· ≠ -1)).prod}
        (requiredBatch (shape.filter (· ≠ -1)) n)) ∧
      ∀ shape' : List Int, shape'.Perm shape →
        batchedShapeDouble shape' n =
          shape'.map fun s => if s = -1 then requiredBatch (shape.filter (· ≠ -1)) n else s := by
  refine ⟨batchedShapeDouble_of_count hopen hpos hn, ?_, ?_⟩
  · intro hone
    apply requiredBatch_isLeast _ hone
    intro s hs
    obtain ⟨hmem, hne⟩ := List.mem_filter.1 hs
    exact hpos s hmem (by simpa using hne)
  · intro shape' hperm
    rw [batchedShapeDouble_of_count (hperm.count_eq (-1) ▸ hopen)
      (fun s hs => hpos s (hperm.mem_iff.1 hs)) hn,
      requiredBatch_perm (hperm.filter (fun s => decide (s ≠ -1))) n]

theorem batchedShapeDouble_least_seven :
    batchedShapeDouble [2, -1, 3] 7 = [2, 2, 3] ∧
      IsLeast {b : Int | 7 ≤ b * ([2, -1, 3].filter (· ≠ (-1 : Int))).prod} 2 := by
  have hbatch : requiredBatch ([2, -1, 3].filter (· ≠ -1)) 7 = 2 := by
    have hothers : ([2, -1, 3] : List Int).filter (· ≠ -1) = [2, 3] := rfl
    rw [hothers, requiredBatch, if_neg (by decide)]
    norm_num [Int.ceil_eq_iff]
  have hopen : ([2, -1, 3] : List Int).count (-1) = 1 := by decide
  obtain ⟨hshape, hleast, _⟩ := @batchedShapeDouble_least 7 _ hopen (by decide) (by decide)
  rw [hbatch] at hshape hleast
  exact ⟨hshape, hleast (by decide)⟩

end OnnxruntimeServer
