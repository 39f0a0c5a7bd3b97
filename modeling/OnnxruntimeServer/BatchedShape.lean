import OnnxruntimeServer.ContextShape

namespace OnnxruntimeServer
set_option autoImplicit true

/-- The lengths that a client's array gives to the `r` dimensions of an input. -/
def clientShape (r : Nat) (data : Json) : List Nat :=
  firstDims r data ++ List.replicate (r - (firstDims r data).length) 1

/-- The batch that `count` values make up where the other dimensions are `dims`. -/
def batchOf (count : Nat) (dims : List Nat) : Nat :=
  if dims = [] then count else max 1 (count ⌈/⌉ dims.prod)

/-- The model leaves at most one dimension open, its other dimensions are the client's, and the
client's length of the open one is the batch that `count` values make up. -/
def BatchFits (shape : List Int) (client : List Nat) (count : Nat) : Prop :=
  shape = client.map Nat.cast ∨
    ∃ before batch after, client = before ++ batch :: after ∧
      shape = before.map Nat.cast ++ -1 :: after.map Nat.cast ∧
      batch = batchOf count (before ++ after)

theorem clientShape_pos (h : d ∈ clientShape r data) : 1 ≤ d := by
  rcases List.mem_append.1 h with h | h
  · exact firstDims_pos h
  · exact (List.eq_of_mem_replicate h).ge

/-- Where its rank passes the check, the shape that `calcShape` finds is the client's. -/
theorem calcShape_eq_client (h : (calcShape data (r : Nat) []).length = r) :
    calcShape data (r : Nat) [] = (clientShape r data).map Nat.cast := by
  rw [calcShape_of_length h, clientShape, List.map_append, List.map_replicate, Nat.cast_one]

theorem inputTensor_bool (h : inputTensor dataset input = .ok call)
    (hb : call.info.element_type = .bool) :
    call.shape =
      batchedShape call.info.shape (flatJsonValues (dataset.member input.name) []).length := by
  rw [inputTensor] at h
  split at h
  · cases h
  · dsimp only at h
    split at h
    · cases h
    · rw [inputValue] at h
      cases hget : input.element_type.get? with
      | none => simp [hget] at h
      | some get =>
        simp only [hget] at h
        obtain ⟨values, _, hv⟩ := bind_eq_ok.1 h
        obtain rfl := Except.ok.inj hv
        exact if_pos hb

theorem ceilDiv_natCast (batch : Nat) (hs : 0 < s) :
    -((-(batch : Int)).fdiv (s : Nat)) = ((batch ⌈/⌉ s : Nat) : Int) := by
  rw [Int.fdiv_eq_ediv_of_nonneg _ (by omega), Nat.ceilDiv_eq_add_pred_div]
  have hdiv := Nat.div_add_mod (batch + s - 1) s
  have hmod := Nat.mod_lt (batch + s - 1) hs
  generalize (batch + s - 1) / s = q at *
  generalize (batch + s - 1) % s = m at *
  -- The remainder of the negated division is what the last slice lacks.
  have hq : -(batch : Int) / s = -q ∧ -(batch : Int) % s = s - 1 - m := by
    rw [Int.ediv_emod_unique (by omega)]
    have : (s : Int) * q + m = batch + s - 1 := by
      rw [← Nat.cast_mul, ← Nat.cast_add, hdiv]
      omega
    refine ⟨?_, by omega, by omega⟩
    rw [mul_neg]
    omega
  rw [hq.1, neg_neg]

theorem batchStep_natCast (batch : Nat) (hs : 0 < s) :
    batchStep batch (s : Nat) = (max 1 (batch ⌈/⌉ s) : Nat) := by
  rw [batchStep, if_neg (by omega), ceilDiv_natCast batch hs, Nat.cast_max, Nat.cast_one]

theorem max_ceilDiv (count : Nat) (hs : 0 < s) (hp : 0 < p) :
    max 1 (max 1 (count ⌈/⌉ s) ⌈/⌉ p) = max 1 (count ⌈/⌉ (s * p)) := by
  apply eq_of_forall_ge_iff
  intro c
  rw [max_le_iff, max_le_iff, ceilDiv_le_iff_le_mul hp, ceilDiv_le_iff_le_mul (Nat.mul_pos hs hp),
    max_le_iff, ceilDiv_le_iff_le_mul hs, mul_assoc]
  constructor
  · rintro ⟨hc, _, h⟩
    exact ⟨hc, h⟩
  · rintro ⟨hc, h⟩
    exact ⟨hc, Nat.mul_pos hp hc, h⟩

def batchLoop (batch : Int) (shape : List Int) : Int :=
  shape.foldl (fun batch s => if s ≠ -1 then batchStep batch s else batch) batch

theorem batchLoop_natCast {dims : List Nat} (hd : ∀ d ∈ dims, 1 ≤ d) (count : Nat) :
    batchLoop count (dims.map Nat.cast) = (batchOf count dims : Nat) := by
  induction dims generalizing count with
  | nil => rfl
  | cons d dims ih =>
    have hpos : 0 < d := hd d (by simp)
    have hdims : ∀ e ∈ dims, 1 ≤ e := fun e he => hd e (by simp [he])
    have hstep : batchLoop count ((d :: dims).map Nat.cast) =
        batchLoop (max 1 (count ⌈/⌉ d) : Nat) (dims.map Nat.cast) := by
      rw [batchLoop, List.map_cons, List.foldl_cons, if_pos (by omega),
        batchStep_natCast count hpos]
      rfl
    rw [hstep, ih hdims]
    cases dims with
    | nil => simp [batchOf]
    | cons e dims =>
      have hprod : 0 < (e :: dims).prod := List.prod_pos fun f hf => hdims f hf
      rw [batchOf, batchOf, if_neg (List.cons_ne_nil _ _), if_neg (List.cons_ne_nil _ _),
        max_ceilDiv count hpos hprod, List.prod_cons (a := d)]

/-- The batch does not depend on where the open dimension stands. -/
theorem batchLoop_open {before after : List Nat} (hd : ∀ d ∈ before ++ after, 1 ≤ d)
    (count : Nat) :
    batchLoop count (before.map Nat.cast ++ -1 :: after.map Nat.cast) =
      (batchOf count (before ++ after) : Nat) := by
  rw [← batchLoop_natCast hd count, List.map_append, batchLoop, List.foldl_append, List.foldl_cons,
    if_neg (by simp), ← List.foldl_append, batchLoop]

theorem replaceFirst_append {before : List Int} (h : -1 ∉ before) (batch : Int)
    (after : List Int) :
    replaceFirst batch (before ++ -1 :: after) = before ++ batch :: after := by
  induction before with
  | nil => rfl
  | cons s before ih =>
    rw [List.mem_cons, not_or] at h
    rw [List.cons_append, replaceFirst, if_neg (Ne.symm h.1), ih h.2]
    rfl

theorem batchedShape_open {before : List Int} (h : -1 ∉ before) (after : List Int) (count : Nat) :
    batchedShape (before ++ -1 :: after) count =
      before ++ batchLoop count (before ++ -1 :: after) :: after := by
  rw [batchedShape, if_pos (by simp), replaceFirst_append h]
  rfl

theorem not_mem_natCast (dims : List Nat) : (-1 : Int) ∉ dims.map Nat.cast := by
  intro h
  obtain ⟨d, _, hd⟩ := List.mem_map.1 h
  omega

theorem batchedShape_eq_iff {shape : List Int} {client : List Nat} (hc : ∀ d ∈ client, 1 ≤ d)
    (count : Nat) :
    batchedShape shape count = client.map Nat.cast ↔ BatchFits shape client count := by
  constructor
  · intro h
    by_cases hopen : -1 ∈ shape
    · obtain ⟨before, after, rfl, hb⟩ := List.eq_append_cons_of_mem hopen
      rw [batchedShape_open hb] at h
      obtain ⟨before', rest, rfl, rfl, hrest⟩ := List.append_eq_map_iff.1 h
      obtain ⟨batch, after', rfl, hbatch, rfl⟩ := List.map_eq_cons_iff.1 hrest
      rw [batchLoop_open fun d hd => hc d (by simp at hd ⊢; tauto)] at hbatch
      exact .inr ⟨before', batch, after', rfl, rfl, Nat.cast_injective hbatch⟩
    · rw [batchedShape, if_neg (by simpa using hopen)] at h
      exact .inl h
  · rintro (rfl | ⟨before, batch, after, rfl, rfl, rfl⟩)
    · exact if_neg (by simp)
    · rw [batchedShape_open (not_mem_natCast before),
        batchLoop_open fun d hd => hc d (by simp at hd ⊢; tauto), List.map_append, List.map_cons]

theorem batchFits_of_prod (hc : ∀ d ∈ before ++ batch :: after, 1 ≤ d) :
    BatchFits (before.map Nat.cast ++ -1 :: after.map Nat.cast) (before ++ batch :: after)
      (before ++ batch :: after).prod := by
  refine .inr ⟨before, batch, after, rfl, rfl, ?_⟩
  have hpos : 0 < (before ++ after).prod :=
    List.prod_pos fun d hd => hc d (by simp at hd ⊢; tauto)
  have hprod : (before ++ batch :: after).prod = (before ++ after).prod * batch := by
    simp only [List.prod_append, List.prod_cons]
    ring
  rw [hprod, batchOf]
  split_ifs with hn
  · rw [hn, List.prod_nil, one_mul]
  · have hb : 1 ≤ batch := hc batch (by simp)
    have hdiv : ((before ++ after).prod * batch) ⌈/⌉ (before ++ after).prod = batch := by
      apply eq_of_forall_ge_iff
      intro c
      rw [ceilDiv_le_iff_le_mul hpos]
      exact mul_le_mul_iff_right₀ hpos
    rw [hdiv, max_eq_right hb]

/-- Every input but a `bool` gets the shape of the client's array. A `bool` input gets it exactly
when the model's shape fits the client's array and its number of values. -/
theorem createTensor_shape_iff (hds : datasetOf lib json_str = .ok dataset)
    (hc : call ∈ (context lib createTensor inputs json_str).calls) :
    (call.info.element_type ≠ .bool →
      call.shape =
        calcShape (dataset.member call.info.name) call.info.shape.length []) ∧
    (call.info.element_type = .bool →
      (call.shape =
          calcShape (dataset.member call.info.name) call.info.shape.length [] ↔
        BatchFits call.info.shape
          (clientShape call.info.shape.length (dataset.member call.info.name))
          (flatJsonValues (dataset.member call.info.name) []).length)) := by
  obtain ⟨ds, hds', input, _, hcall⟩ := context_calls hc
  obtain rfl : dataset = ds := Except.ok.inj (hds.symm.trans hds')
  obtain ⟨hname, htype, hshape, hl, hs, _⟩ := inputTensor_ok hcall
  rw [← hname, ← hshape] at hl hs
  refine ⟨fun hb => hs (htype ▸ hb), fun hb => ?_⟩
  rw [inputTensor_bool hcall hb, calcShape_eq_client hl, ← hname]
  exact batchedShape_eq_iff (fun d hd => clientShape_pos hd) _

def flagCalls (shape : List Int) (data : Json) : List CreateTensor :=
  (context ⟨fun _ => ⟨[], .ok .null⟩, fun _ => []⟩ (fun _ => .ok ())
    [⟨ascii "X", .bool, shape, []⟩] (.object [(ascii "X", data)])).calls

def flags (bs : List Bool) : Json := .array (bs.map .boolean)

theorem createTensor_shape_iff_column :
    ∃ call ∈ flagCalls [-1, 1] (.array [flags [true], flags [false]]),
      call.shape = calcShape (.array [flags [true], flags [false]]) 2 [] := by
  have hds : datasetOf ⟨fun _ => ⟨[], .ok .null⟩, fun _ => []⟩
      (.object [(ascii "X", .array [flags [true], flags [false]])]) =
      .ok (.object [(ascii "X", .array [flags [true], flags [false]])]) := rfl
  obtain ⟨call, hcalls, hinfo⟩ : ∃ call,
      flagCalls [-1, 1] (.array [flags [true], flags [false]]) = [call] ∧
        call.info = ⟨ascii "X", .bool, [-1, 1], [2, 1]⟩ := ⟨_, rfl, rfl⟩
  have hc : call ∈ flagCalls [-1, 1] (.array [flags [true], flags [false]]) := by
    rw [hcalls]
    exact List.mem_singleton_self _
  have hiff := (createTensor_shape_iff hds hc).2
  rw [hinfo] at hiff
  have hfits : BatchFits [-1, 1] [2, 1] 2 :=
    @batchFits_of_prod [] 2 [1] (by decide)
  exact ⟨call, hc, (hiff rfl).2 hfits⟩

/-- A fixed dimension that the client's array does not have, and a second open dimension. -/
theorem createTensor_shape_ne :
    (flagCalls [2] (flags [true, false, true])).map CreateTensor.shape = [[2]] ∧
      calcShape (flags [true, false, true]) 1 [] = [3] ∧
      (flagCalls [-1, -1] (.array [flags [true, false]])).map CreateTensor.shape = [[2, -1]] ∧
      calcShape (.array [flags [true, false]]) 2 [] = [1, 2] :=
  ⟨rfl, rfl, rfl, rfl⟩

end OnnxruntimeServer
