import OnnxruntimeServer.Context
import OnnxruntimeServer.Lib.Nested

namespace OnnxruntimeServer
set_option autoImplicit true
open Nested

variable {j : Json}

/-- A JSON value is rectangular when it is nested to one depth with one length at each level. -/
abbrev Json.Rect (dims : List Nat) (j : Json) : Prop := Nested.Rect Json.children dims j

/-- The values at nesting depth `k` below `j`. -/
abbrev Json.leavesAt (k : Nat) (j : Json) : List Json := descend Json.children k [j]

/-- The lengths of the nested non-empty arrays met along first elements, at most `r` of them. -/
def firstDims : Nat → Json → List Nat
  | r + 1, .array (item :: items) => (item :: items).length :: firstDims r item
  | _, _ => []

theorem firstDims_pos (h : d ∈ firstDims r j) : 1 ≤ d := by
  induction r, j using firstDims.induct with
  | case1 r item items ih =>
    rw [firstDims, List.mem_cons] at h
    rcases h with rfl | h
    · simp
    · exact ih h
  | case2 r j hj => simp [firstDims] at h

theorem firstDims_length_le (r : Nat) (j : Json) : (firstDims r j).length ≤ r := by
  induction r, j using firstDims.induct with
  | case1 r item items ih => simpa [firstDims] using ih
  | case2 r j hj => simp [firstDims]

theorem firstDims_of_rect (h : j.Rect dims) (hd : ∀ d ∈ dims, 1 ≤ d) (r : Nat) :
    firstDims r j = dims.take r := by
  induction dims generalizing j r with
  | nil =>
    cases j with
    | array items => cases h
    | _ => cases r <;> rfl
  | cons d dims ih =>
    obtain ⟨items, hj, hl, hitems⟩ := h
    obtain rfl := Json.eq_array_of_children hj
    cases items with
    | nil => exact absurd (hd d (by simp)) (by simp [← hl])
    | cons item items =>
      cases r with
      | zero => simp [firstDims]
      | succ r =>
        rw [firstDims, ih (hitems item (by simp)) (fun e he => hd e (by simp [he])), hl,
          List.take_succ_cons]

/-- The dimensions of 1 that `calcShape` adds below `d` lengths it met, for `count` levels asked
of it with `n` dimensions already there. -/
def padding (n count d : Nat) : List Int :=
  List.replicate (if count ≤ n + 2 * d + 1 then count - (n + d) else 0) 1

theorem padding_stop (n count : Nat) (xs : List Int) (hl : xs.length = n) :
    (if (xs.length : Int) = (count : Int) - 1 then xs ++ [1] else xs) =
      xs ++ padding n count 0 := by
  rw [padding, hl]
  by_cases h : (n : Int) = (count : Int) - 1
  · rw [if_pos h, if_pos (by omega), show count - (n + 0) = 1 by omega]
    rfl
  · rw [if_neg h]
    by_cases hc : count ≤ n + 2 * 0 + 1
    · rw [if_pos hc, show count - (n + 0) = 0 by omega]
      simp
    · rw [if_neg hc]
      simp

theorem padding_back (n count d : Nat) (xs : List Int) (hl : xs.length = n + 1 + d) :
    (if ((xs ++ padding (n + 1) count d).length : Int) = ((count + 1 : Nat) : Int) - 1
      then xs ++ padding (n + 1) count d ++ [1] else xs ++ padding (n + 1) count d) =
      xs ++ padding n (count + 1) (d + 1) := by
  have hcond : (count ≤ n + 1 + 2 * d + 1) ↔ (count + 1 ≤ n + 2 * (d + 1) + 1) := by omega
  simp only [padding, hcond, List.length_append, hl, List.length_replicate]
  by_cases h : count + 1 ≤ n + 2 * (d + 1) + 1
  · simp only [if_pos h]
    by_cases hc : n + 1 + d ≤ count
    · rw [if_pos (by omega), show count + 1 - (n + (d + 1)) = count - (n + 1 + d) + 1 by omega,
        List.replicate_succ', List.append_assoc]
    · rw [if_neg (by omega), show count + 1 - (n + (d + 1)) = count - (n + 1 + d) by omega]
  · rw [if_neg h, if_neg (by omega), if_neg h]

theorem calcShape_descend (item : Json) (items : List Json) (count : Nat) (acc : List Int) :
    calcShape (.array (item :: items)) (count + 1 : Nat) acc =
      let shape := calcShape item count (acc ++ [((item :: items).length : Int)])
      if (shape.length : Int) = ((count + 1 : Nat) : Int) - 1 then shape ++ [1] else shape := by
  have hne : ((count + 1 : Nat) : Int) ≠ 0 := by omega
  have hpred : ((count + 1 : Nat) : Int) - 1 = (count : Int) := by omega
  rw [calcShape]
  simp only [if_pos hne, hpred]

theorem calcShape_stop (h : ∀ r item items, count = r + 1 → j = .array (item :: items) → False)
    (acc : List Int) :
    calcShape j (count : Nat) acc =
      if (acc.length : Int) = (count : Int) - 1 then acc ++ [1] else acc := by
  cases j with
  | array items =>
    cases items with
    | nil => rw [calcShape]; simp
    | cons item items =>
      cases count with
      | zero => rw [calcShape]; simp
      | succ count => exact (h count item items rfl rfl).elim
  | _ => rw [calcShape]; simp

/-- What `calcShape` appends: the lengths it meets, then its padding. -/
theorem calcShape_eq (j : Json) (count : Nat) (acc : List Int) :
    calcShape j count acc =
      acc ++ (firstDims count j).map Nat.cast ++
        padding acc.length count (firstDims count j).length := by
  induction count, j using firstDims.induct generalizing acc with
  | case1 count item items ih =>
    have hacc : (acc ++ [((item :: items).length : Int)]).length = acc.length + 1 := by simp
    have hback := padding_back acc.length count (firstDims count item).length
      (acc ++ [((item :: items).length : Int)] ++ (firstDims count item).map Nat.cast)
      (by simp; omega)
    rw [calcShape_descend, ih, hacc, firstDims, List.map_cons]
    simpa only [List.append_assoc, List.singleton_append, List.length_cons] using hback
  | case2 count j hj =>
    have hf : firstDims count j = [] := by
      rw [firstDims]
      exact hj
    rw [hf, List.map_nil, List.append_nil, List.length_nil, ← padding_stop _ _ acc rfl]
    exact calcShape_stop hj acc

theorem calcShape_of_length (h : (calcShape j (r : Nat) []).length = r) :
    calcShape j (r : Nat) [] =
      (firstDims r j).map Nat.cast ++ List.replicate (r - (firstDims r j).length) 1 := by
  rw [calcShape_eq] at h ⊢
  simp only [List.nil_append, List.length_nil, padding, List.length_append, List.length_map,
    List.length_replicate] at h ⊢
  congr 2
  omega

/-- What the constructor answers where the shape it derives has another rank than the model's. -/
def rankError (input : ValueInfo) (rank : Nat) : Exception :=
  badRequestError (ascii "Input " ++ input.name ++ ascii " has tensor rank " ++
    ascii (toString rank) ++ ascii " but the model expects rank " ++
    ascii (toString input.shape.length))

theorem getReal_error (he : getReal type boolean j = .error e) : e.kind = .stdException := by
  rw [getReal.eq_def] at he
  split at he
  iterate 3 cases he
  · split at he
    · cases he
    · obtain rfl := Except.error.inj he
      rfl
  · obtain rfl := Except.error.inj he
    rfl

theorem getInteger_error (he : getInteger signed bits boolean j = .error e) :
    e.kind = .stdException := by
  rw [getInteger.eq_def] at he
  split at he
  iterate 2 cases he
  · split at he <;> cases he
  · split at he
    · cases he
    · obtain rfl := Except.error.inj he
      rfl
  · obtain rfl := Except.error.inj he
    rfl

theorem get?_error {get : Json → Except Exception Scalar} {type : ElementType}
    (h : type.get? = some get) (he : get j = .error e) : e.kind = .stdException := by
  cases type with
  | float | double | bfloat16 | float16 =>
    obtain rfl := Option.some.inj h
    exact getReal_error he
  | int8 | int16 | int32 | int64 | uint8 | uint16 | uint32 | uint64 =>
    obtain rfl := Option.some.inj h
    exact getInteger_error he
  | bool =>
    obtain rfl := Option.some.inj h
    cases j with
    | boolean b => cases he
    | _ =>
      obtain rfl := Except.error.inj he
      rfl
  | string =>
    obtain rfl := Option.some.inj h
    cases j with
    | string s => cases he
    | _ =>
      obtain rfl := Except.error.inj he
      rfl
  | _ => cases h

theorem mapM_error {f : α → Except ε β} {xs : List α} (h : xs.mapM f = .error e) :
    ∃ x ∈ xs, f x = .error e := by
  induction xs with
  | nil => cases h
  | cons x xs ih =>
    rw [List.mapM_cons] at h
    rcases bind_eq_error.1 h with hx | ⟨y, _, h⟩
    · exact ⟨x, List.mem_cons_self, hx⟩
    · rcases bind_eq_error.1 h with hxs | ⟨ys, _, h⟩
      · obtain ⟨x', hmem, hx'⟩ := ih hxs
        exact ⟨x', List.mem_cons_of_mem x hmem, hx'⟩
      · cases h

theorem inputValue_ne_rankError (info input : ValueInfo) (json_value : List Json) (rank : Nat) :
    inputValue info json_value ≠ .error (rankError input rank) := by
  intro h
  rw [inputValue] at h
  cases hget : info.element_type.get? with
  | none =>
    simp only [hget, Except.error.injEq] at h
    have hwhat := congrArg (fun e : Exception => e.what.head?) h
    revert hwhat
    simp [rankError, badRequestError, exception, cString, ascii]
  | some get =>
    simp only [hget] at h
    rcases bind_eq_error.1 h with hm | ⟨values, _, h⟩
    · obtain ⟨x, _, hx⟩ := mapM_error hm
      exact absurd (get?_error hget hx) (by simp [rankError, badRequestError, exception])
    · cases h

/-- The rank check refuses an array exactly when the shape derived from it has another rank. -/
theorem inputTensor_eq_rankError (hd : (dataset.member input.name).isArray = true) :
    (∃ rank, inputTensor dataset input = .error (rankError input rank)) ↔
      (calcShape (dataset.member input.name) input.shape.length []).length ≠
        input.shape.length := by
  rw [inputTensor]
  simp only [hd, Bool.not_true, Bool.false_eq_true, if_false]
  by_cases hr : (calcShape (dataset.member input.name) input.shape.length []).length =
      input.shape.length
  · simp only [hr, ne_eq, not_true_eq_false, if_false, iff_false]
    rintro ⟨rank, h⟩
    exact inputValue_ne_rankError _ input _ rank h
  · simp only [ne_eq, hr, not_false_eq_true, if_true, iff_true]
    exact ⟨_, rfl⟩

/-- The padding of `calcShape`, and which paths shorter than the model's rank it lets through. -/
theorem calcShape_padding (data : Json) (r : Nat) :
    (firstDims r data).length ≤ r ∧
      calcShape data r [] = (firstDims r data).map Nat.cast ++
        (if r ≤ 2 * (firstDims r data).length + 1 then
          List.replicate (r - (firstDims r data).length) 1 else []) ∧
      ∀ dataset input, dataset.member input.name = data → data.isArray = true →
        input.shape.length = r → (firstDims r data).length < r →
          ((∃ rank, inputTensor dataset input = .error (rankError input rank)) ↔
            ¬ r ≤ 2 * (firstDims r data).length + 1) := by
  have hshape : calcShape data r [] = (firstDims r data).map Nat.cast ++
      (if r ≤ 2 * (firstDims r data).length + 1 then
        List.replicate (r - (firstDims r data).length) 1 else []) := by
    rw [calcShape_eq, List.nil_append, List.length_nil, padding, Nat.zero_add, Nat.zero_add]
    split_ifs <;> rfl
  have hle := firstDims_length_le r data
  refine ⟨hle, hshape, ?_⟩
  intro dataset input hdata harray hr hlt
  rw [inputTensor_eq_rankError (hdata ▸ harray), hdata, hr, hshape, List.length_append,
    List.length_map]
  split_ifs with hpad
  · rw [List.length_replicate]
    omega
  · rw [List.length_nil]
    omega

theorem flatItems_eq (hf : ∀ item ∈ items, ∀ acc, flatJsonValues item acc = acc ++ f item)
    (acc : List Json) : flatItems items acc = acc ++ items.flatMap f := by
  induction items generalizing acc with
  | nil => rw [flatItems, List.flatMap_nil, List.append_nil]
  | cons item items ih =>
    rw [flatItems, hf item (by simp), ih (fun x hx => hf x (by simp [hx])), List.flatMap_cons,
      List.append_assoc]

theorem flatJsonValues_of_rect (h : j.Rect dims) (acc : List Json) :
    flatJsonValues j acc = acc ++ j.leavesAt dims.length := by
  induction dims generalizing j acc with
  | nil =>
    cases j with
    | array items => cases h
    | _ => rw [flatJsonValues] <;> simp [descend]
  | cons d dims ih =>
    obtain ⟨items, hj, _, hitems⟩ := h
    obtain rfl := Json.eq_array_of_children hj
    rw [flatJsonValues, flatItems_eq (fun item hi acc => ih (hitems item hi) acc),
      ← descend_eq_flatMap, ← descend_children hj, List.length_cons]

theorem flatJsonValues_length (h : j.Rect dims) :
    (flatJsonValues j []).length = dims.prod := by
  rw [flatJsonValues_of_rect h, List.nil_append]
  exact h.length_descend

theorem flatJsonValues_getElem (h : j.Rect dims) (hi : InRange is dims) :
    (flatJsonValues j [])[rowMajor dims is]? = follow Json.children is j := by
  rw [flatJsonValues_of_rect h, List.nil_append]
  exact h.getElem_descend hi

theorem fitRows_leavesAt (h : j.Rect (dims ++ d :: es)) (hd : 1 ≤ d) :
    fitRows (j.leavesAt (dims.length + 1)) d (j.leavesAt (dims.length + 1)).length 0 =
      .ok (j.leavesAt dims.length) := by
  have hnode : ∀ x ∈ j.leavesAt dims.length,
      ∃ items, x = .array items ∧ items.length = d := by
    intro x hx
    obtain ⟨items, hc, hl, _⟩ := Rect.mem_descend h hx
    exact ⟨items, Json.eq_array_of_children hc, hl⟩
  have hrow : ∀ row ∈ (j.leavesAt dims.length).map fun x => x.children.getD [],
      row.length = d := by
    simp only [List.forall_mem_map]
    intro x hx
    obtain ⟨items, rfl, hl⟩ := hnode x hx
    exact hl
  have hback : ((j.leavesAt dims.length).map fun x => x.children.getD []).map Json.array =
      j.leavesAt dims.length := by
    rw [List.map_map]
    refine (List.map_congr_left fun x hx => ?_).trans (List.map_id _)
    obtain ⟨items, rfl, _⟩ := hnode x hx
    rfl
  have hflat : j.leavesAt (dims.length + 1) =
      ((j.leavesAt dims.length).map fun x => x.children.getD []).flatten := by
    rw [Json.leavesAt, descend_succ, List.flatMap_def]
  have hlen : ((j.leavesAt dims.length).map fun x => x.children.getD []).length ≤
      (j.leavesAt (dims.length + 1)).length := by
    rw [Json.leavesAt, Json.leavesAt, descend_succ, length_flatMap_of_forall _ d _
      fun x hx => hrow _ (List.mem_map_of_mem hx), List.length_map]
    exact Nat.le_mul_of_pos_right _ hd
  rw [fitRows_of_drop hd hrow (List.drop_zero.trans hflat) hlen, hback]

/-- From the values at one level, `values_fit_shape` rebuilds the levels above it. -/
theorem valuesFitShape_leavesAt (h : j.Rect (dims ++ es)) (hd : ∀ d ∈ dims, 1 ≤ d)
    (hk : 1 ≤ dims.length) (shape : List Int)
    (hs : ∀ i (hi : i < dims.length), shape[i]? = some (dims[i] : Int)) :
    valuesFitShape (j.leavesAt dims.length) shape dims.length = .ok (j.leavesAt 1) := by
  induction dims using List.reverseRecOn generalizing es with
  | nil => simp at hk
  | append_singleton dims d ih =>
    rw [List.append_assoc, List.singleton_append] at h
    cases hc : dims.length with
    | zero =>
      obtain rfl := List.length_eq_zero_iff.1 hc
      rfl
    | succ k =>
      have hdim : shape[k + 1]? = some (d : Int) := by
        have := hs dims.length (by simp)
        simpa [hc] using this
      have hfit := fitRows_leavesAt h (hd d (by simp))
      have hup := ih h (fun e he => hd e (by simp [he])) (by omega) fun i hi => by
        rw [hs i (by simp; omega), List.getElem_append_left hi]
      rw [List.length_append, List.length_singleton, hc] at *
      simp only [valuesFitShape, hdim, toSize_natCast, hfit]
      exact hup

theorem calcShape_of_rect (h : j.Rect dims) (hd : ∀ d ∈ dims, 1 ≤ d) :
    calcShape j dims.length [] = dims.map Nat.cast := by
  have hf : firstDims dims.length j = dims := by rw [firstDims_of_rect h hd, List.take_length]
  rw [calcShape_eq, hf, List.nil_append, List.length_nil, padding, Nat.zero_add, Nat.zero_add,
    Nat.sub_self, ite_self, List.replicate_zero, List.append_nil]

theorem valuesFitShape_of_rect (h : j.Rect dims) (hr : dims ≠ []) (hd : ∀ d ∈ dims, 1 ≤ d) :
    ∃ items, j = .array items ∧
      valuesFitShape (flatJsonValues j []) (dims.map Nat.cast) dims.length = .ok items := by
  have hlen : 1 ≤ dims.length := List.length_pos_iff.2 hr
  have hrect : j.Rect (dims ++ []) := by rwa [List.append_nil]
  have hfit := valuesFitShape_leavesAt hrect hd hlen
    (dims.map Nat.cast) fun i hi => by simp [hi]
  obtain ⟨d, ds, rfl⟩ := List.exists_cons_of_ne_nil hr
  have ⟨items, hj, _⟩ := h
  refine ⟨items, Json.eq_array_of_children hj, ?_⟩
  rw [flatJsonValues_of_rect h, List.nil_append, hfit, Json.leavesAt, descend_children hj, descend]

theorem forall₂_getElem? {R : α → β → Prop} {xs : List α} {ys : List β} {n : Nat}
    (h : List.Forall₂ R xs ys) (hx : xs[n]? = some x) : ∃ y, ys[n]? = some y ∧ R x y := by
  obtain ⟨hn, rfl⟩ := List.getElem?_eq_some_iff.1 hx
  have hn' : n < ys.length := h.length_eq ▸ hn
  exact ⟨ys[n], List.getElem?_eq_getElem hn', h.get hn hn'⟩

theorem map_decode_eq {get : Json → Except Exception Scalar} {decode : Scalar → Json}
    (h : List.Forall₂ (fun leaf value => get leaf = .ok value) leaves values)
    (hdec : ∀ leaf ∈ leaves, ∀ value, get leaf = .ok value → decode value = leaf) :
    values.map decode = leaves := by
  induction h with
  | nil => rfl
  | @cons leaf value leaves values hg _ ih =>
    rw [List.map_cons, hdec leaf (by simp) value hg, ih fun l hl => hdec l (by simp [hl])]

/-- The leaf that a multi-index of the model's rank names. Below a leaf, where the array leaves
trailing dimensions out, only the index 0 is left. -/
def leafAt : List Nat → Json → Option Json
  | i :: is, .array items => items[i]?.bind (leafAt is)
  | [], .array _ => none
  | is, leaf => if is.all (· = 0) then some leaf else none

theorem leafAt_append_zeros (h : j.Rect dims) (hi : InRange is dims) (k : Nat) :
    leafAt (is ++ List.replicate k 0) j = follow Json.children is j := by
  induction hi generalizing j with
  | nil =>
    cases j with
    | array items => cases h
    | _ => cases k <;> simp [leafAt, follow, List.replicate_succ]
  | @cons i d is dims hid his ih =>
    obtain ⟨items, hj, hl, hitems⟩ := h
    obtain rfl := Json.eq_array_of_children hj
    have hlt : i < items.length := by omega
    have hi : items[i]? = some items[i] := List.getElem?_eq_getElem hlt
    rw [List.cons_append, leafAt, follow, hj, hi]
    simp only [Option.bind_some, hi]
    exact ih (hitems _ (List.getElem_mem _))

theorem leafAt_zeros_of_deep (h : j.Rect dims) (hd : ∀ d ∈ dims, 1 ≤ d) (hr : r < dims.length) :
    leafAt (List.replicate r 0) j = none := by
  induction r generalizing j dims with
  | zero =>
    obtain ⟨d, dims, rfl⟩ := List.exists_cons_of_length_pos hr
    obtain ⟨items, hj, _⟩ := h
    obtain rfl := Json.eq_array_of_children hj
    rfl
  | succ r ih =>
    obtain ⟨d, dims, rfl⟩ := List.exists_cons_of_length_pos (Nat.zero_lt_of_lt hr)
    obtain ⟨items, hj, hl, hitems⟩ := h
    obtain rfl := Json.eq_array_of_children hj
    have hpos : 0 < items.length := by rw [hl]; exact hd d (by simp)
    rw [List.replicate_succ, leafAt, List.getElem?_eq_getElem hpos]
    exact ih (hitems _ (List.getElem_mem _)) (fun e he => hd e (by simp [he])) (by simpa using hr)

/-- The arguments of a call of `CreateTensor` describe the array `j` given for the input. -/
structure CreateTensor.Describes (call : CreateTensor) (j : Json) : Prop where
  rectangular : ∃ dims, j.Rect dims
  count : (call.values.length : Int) = call.shape.prod
  element : ∀ is, InRange is (call.shape.map Int.toNat) →
    ∃ get leaf value, call.info.element_type.get? = some get ∧ leafAt is j = some leaf ∧
      get leaf = .ok value ∧ call.values[rowMajor (call.shape.map Int.toNat) is]? = some value

theorem describes_of_rect {call : CreateTensor} {get : Json → Except Exception Scalar}
    (h : j.Rect dims)
    (hs : call.shape = dims.map Nat.cast ++ List.replicate k 1)
    (hget : call.info.element_type.get? = some get)
    (hv : (flatJsonValues j []).mapM get = .ok call.values) : call.Describes j := by
  have hvals := mapM_forall₂ hv
  have hnat : call.shape.map Int.toNat = dims ++ List.replicate k 1 := by
    rw [hs]
    simp [Function.comp_def]
  refine ⟨⟨dims, h⟩, ?_, ?_⟩
  · rw [← hvals.length_eq, flatJsonValues_length h, hs, List.prod_append, List.prod_replicate,
      one_pow, mul_one]
    exact Nat.cast_list_prod dims
  · intro is his
    rw [hnat] at his ⊢
    obtain ⟨js, rfl, hjs⟩ := his.append_ones
    obtain ⟨leaf, hleaf, _⟩ := h.follow_leaf hjs
    have hflat := (flatJsonValues_getElem h hjs).trans hleaf
    rw [rowMajor_append_ones hjs, leafAt_append_zeros h hjs]
    obtain ⟨value, hvalue, hconv⟩ := forall₂_getElem? hvals hflat
    exact ⟨get, leaf, value, hget, hleaf, hconv, hvalue⟩

theorem toNat_pos_of_mem {shape : List Int}
    (hs : shape = (firstDims r j).map Nat.cast ++ List.replicate k 1)
    (hm : n ∈ shape.map Int.toNat) : 0 < n := by
  rw [hs, List.map_append, List.map_replicate, List.map_map, List.mem_append] at hm
  rcases hm with hm | hm
  · obtain ⟨d, hd, rfl⟩ := List.mem_map.1 hm
    exact firstDims_pos hd
  · rw [List.eq_of_mem_replicate hm]
    exact Nat.one_pos

theorem rect_of_describes {call : CreateTensor} {get : Json → Except Exception Scalar}
    (h : call.Describes j)
    (hs : call.shape = calcShape j (r : Nat) []) (hr : call.shape.length = r)
    (hv : (flatJsonValues j []).mapM get = .ok call.values) :
    ∃ dims, j.Rect dims ∧ dims.length ≤ r ∧ ∀ d ∈ dims, 1 ≤ d := by
  obtain ⟨⟨dims, hrect⟩, hcount, helem⟩ := h
  have hshape : call.shape =
      (firstDims r j).map Nat.cast ++ List.replicate (r - (firstDims r j).length) 1 := by
    rw [hs, calcShape_of_length (by rw [← hs, hr])]
  have hprod : dims.prod = (firstDims r j).prod := by
    rw [hshape, List.prod_append, List.prod_replicate, one_pow, mul_one,
      ← (mapM_forall₂ hv).length_eq, flatJsonValues_length hrect, ← Nat.cast_list_prod] at hcount
    exact_mod_cast hcount
  have hd : ∀ d ∈ dims, 1 ≤ d := by
    intro d hmem
    rcases Nat.eq_zero_or_pos d with rfl | hpos
    · rw [List.prod_eq_zero hmem] at hprod
      exact absurd hprod.symm (List.prod_ne_zero fun hz => absurd (firstDims_pos hz) (by simp))
    · exact hpos
  refine ⟨dims, hrect, ?_, hd⟩
  by_contra hlt
  -- Nested deeper than the rank, the array has no leaf at the first index.
  have hin : InRange (List.replicate r 0) (call.shape.map Int.toNat) := by
    refine List.forall₂_iff_get.2 ⟨by simp [hr], fun i h₀ h₁ => ?_⟩
    have hmem : (call.shape.map Int.toNat)[i] ∈ call.shape.map Int.toNat := List.getElem_mem _
    simp only [List.get_eq_getElem, List.getElem_replicate]
    exact toNat_pos_of_mem hshape hmem
  obtain ⟨_, leaf, _, _, hleaf, _⟩ := helem _ hin
  rw [leafAt_zeros_of_deep hrect hd (by omega)] at hleaf
  cases hleaf

/-- A call of `CreateTensor` describes its array exactly when the array is rectangular, without
empty rows, and nested no deeper than the model's rank. -/
theorem createTensor_describes_iff (hds : datasetOf lib json_str = .ok dataset)
    (hc : call ∈ (context lib createTensor inputs json_str).calls)
    (hb : call.info.element_type ≠ .bool) :
    call.Describes (dataset.member call.info.name) ↔
      ∃ dims, (dataset.member call.info.name).Rect dims ∧ dims.length ≤ call.info.shape.length ∧
        ∀ d ∈ dims, 1 ≤ d := by
  obtain ⟨ds, hds', input, _, hcall⟩ := context_calls hc
  obtain rfl : dataset = ds := Except.ok.inj (hds.symm.trans hds')
  obtain ⟨hname, htype, hshape, hl, hs, get, hget, hv⟩ := inputTensor_ok hcall
  rw [← htype] at hs hget
  rw [← hname, ← hshape] at hl hs
  rw [← hname] at hv
  replace hs := hs hb
  rw [← hs] at hl
  constructor
  · intro h
    exact rect_of_describes h hs hl hv
  · rintro ⟨dims, hrect, hle, hd⟩
    refine describes_of_rect (k := call.info.shape.length - dims.length) hrect ?_ hget hv
    rw [hs, calcShape_of_length (by rw [← hs, hl]), firstDims_of_rect hrect hd,
      List.take_of_length_le hle]

def matrixInput : ValueInfo := ⟨ascii "X", .float, [-1, 1], []⟩

def matrixDataset (rows : List Json) : Json := .object [(ascii "X", .array rows)]

def matrixCalls (rows : List Json) : List CreateTensor :=
  (context ⟨fun _ => ⟨[], .ok .null⟩, fun _ => []⟩ (fun _ => .ok ()) [matrixInput]
    (matrixDataset rows)).calls

def entry (n : Nat) : Json := .unsigned n.toUInt64

theorem createTensor_describes_iff_column :
    ∃ call ∈ matrixCalls [.array [entry 1], .array [entry 2]],
      call.Describes (.array [.array [entry 1], .array [entry 2]]) := by
  have hds : datasetOf ⟨fun _ => ⟨[], .ok .null⟩, fun _ => []⟩
      (matrixDataset [.array [entry 1], .array [entry 2]]) =
      .ok (matrixDataset [.array [entry 1], .array [entry 2]]) := rfl
  obtain ⟨call, hcalls, hname, hshape, hb⟩ : ∃ call,
      matrixCalls [.array [entry 1], .array [entry 2]] = [call] ∧ call.info.name = ascii "X" ∧
        call.info.shape.length = 2 ∧ call.info.element_type ≠ .bool :=
    ⟨_, rfl, rfl, rfl, by decide⟩
  have hc : call ∈ matrixCalls [.array [entry 1], .array [entry 2]] := by
    rw [hcalls]
    exact List.mem_singleton_self _
  have hiff := createTensor_describes_iff hds hc hb
  rw [hname, hshape] at hiff
  refine ⟨call, hc, hiff.2 ?_⟩
  have hrect : Json.Rect [2, 1] (.array [.array [entry 1], .array [entry 2]]) := by
    simp [Json.Rect, Nested.Rect, Json.children, entry]
  exact ⟨[2, 1], hrect, by decide, by decide⟩

/-- A ragged array passes the rank check: three values are handed over with the shape `[2, 1]`. -/
theorem createTensor_not_describes :
    ∃ call ∈ matrixCalls [.array [entry 1], .array [entry 2, entry 3]],
      ¬ call.Describes (.array [.array [entry 1], .array [entry 2, entry 3]]) := by
  refine ⟨_, List.mem_singleton.2 rfl, fun h => ?_⟩
  have := h.count
  revert this
  decide

end OnnxruntimeServer
