import OnnxruntimeServer.ExecutionContext

namespace OnnxruntimeServer
set_option autoImplicit true

namespace ExecutionContext
variable {session : Session}

/-- The dataset is refused before an `input_value` of it has made its buffer. -/
inductive RejectedAtOnce (lib : JsonLibrary) (inputs : List ValueInfo) (json_str : Json) : Prop where
  | dataset : datasetOf lib json_str = .error e → RejectedAtOnce lib inputs json_str
  | firstInput : datasetOf lib json_str = .ok dataset → inputs = input :: rest →
    (dataset.member input.name).isArray = false ∨
      (calcShape (dataset.member input.name) input.shape.length []).length ≠ input.shape.length ∨
      input.element_type.get? = none →
    RejectedAtOnce lib inputs json_str

theorem prepareInput_error_iff : (∃ e, prepareInput dataset input = .error e) ↔
    (dataset.member input.name).isArray = false ∨
      (calcShape (dataset.member input.name) input.shape.length []).length ≠ input.shape.length := by
  rw [prepareInput]
  dsimp only
  split
  · rename_i h
    simp only [Bool.not_eq_true'] at h
    simp [h]
  · rename_i h
    simp only [Bool.not_eq_true', Bool.not_eq_false] at h
    split <;> simp [*]

theorem subset_makeInputs (createTensor : CreateTensor → Except Bytes Unit) (dataset : Json)
    (rest : List ValueInfo) (inputs : List (Bytes × InputValue)) (heap : Heap) :
    heap.live ⊆ (makeInputs createTensor dataset rest inputs heap).2.live := by
  induction rest generalizing inputs heap with
  | nil => exact Finset.Subset.refl _
  | cons input rest ih =>
    have hround := makeInputs_cases createTensor dataset input rest inputs heap
    revert hround
    generalize makeInputs createTensor dataset (input :: rest) inputs heap = r
    intro hround
    obtain ⟨res, heap'⟩ := r
    cases hround with
    | rejected _ _ hlive => exact hlive.symm.subset
    | thrown _ _ _ hlive =>
      rw [hlive]
      exact Finset.subset_insert _ _
    | @goOn call next _ _ _ _ _ hlive hm =>
      have hrest := ih (Json.setMember input.name ⟨heap.next, some call, [heap.next + 1]⟩ inputs)
        next
      rw [hm, hlive] at hrest
      exact fun n hn => hrest (Finset.mem_insert_of_mem (Finset.mem_insert_of_mem hn))

/-- Once a buffer is made, an exception leaves it behind. -/
theorem makeInputs_live_iff (createTensor : CreateTensor → Except Bytes Unit) (dataset : Json)
    (input : ValueInfo) (rest : List ValueInfo) (inputs : List (Bytes × InputValue)) (heap : Heap) :
    (makeInputs createTensor dataset (input :: rest) inputs heap).2.live = heap.live ↔
      (∃ e, prepareInput dataset input = .error e) ∨ input.element_type.get? = none := by
  have hround := makeInputs_cases createTensor dataset input rest inputs heap
  revert hround
  generalize makeInputs createTensor dataset (input :: rest) inputs heap = r
  intro hround
  obtain ⟨res, heap'⟩ := r
  cases hround with
  | @rejected e _ hcause _ hlive =>
    apply iff_of_true hlive
    rcases hcause with hcause | hcause
    · exact .inl ⟨e, hcause⟩
    · exact .inr hcause
  | thrown hprep hget _ hlive =>
    apply iff_of_false
    · rw [hlive]
      intro h
      have hmem : heap.next + 1 ∈ heap.live := h ▸ Finset.mem_insert_self _ _
      exact absurd (heap.below _ hmem) (by omega)
    · rintro (h | h)
      · exact hprep h
      · exact hget h
  | @goOn call next _ _ hi _ _ hlive hm =>
    apply iff_of_false
    · intro h
      have hsub := subset_makeInputs createTensor dataset rest
        (Json.setMember input.name ⟨heap.next, some call, [heap.next + 1]⟩ inputs) next
      rw [hm, hlive] at hsub
      have hmem : heap.next ∈ heap.live := by
        rw [← h]
        exact hsub (Finset.mem_insert_of_mem (Finset.mem_insert_self _ _))
      exact heap.next_notMem hmem
    · rintro (⟨e, h⟩ | h)
      · rw [inputTensor_eq, h] at hi
        cases hi
      · obtain ⟨_, _, _, _, _, get, hget, _⟩ := inputTensor_ok hi
        rw [h] at hget
        cases hget

def owned (inputs : List (Bytes × InputValue)) : List Nat :=
  inputs.flatMap fun p => p.2.address :: p.2.deallocators

theorem owned_setMember {inputs : List (Bytes × InputValue)} (h : ∀ e ∈ inputs, e.1 ≠ name)
    (value : InputValue) :
    n ∈ owned (Json.setMember name value inputs) ↔
      n ∈ value.address :: value.deallocators ∨ n ∈ owned inputs := by
  simp only [owned, List.mem_flatMap, Json.mem_setMember h]
  constructor
  · rintro ⟨e, rfl | he, hn⟩
    · exact .inl hn
    · exact .inr ⟨e, he, hn⟩
  · rintro (hn | ⟨e, he, hn⟩)
    · exact ⟨_, .inl rfl, hn⟩
    · exact ⟨e, .inr he, hn⟩

theorem makeInputs_owned {inputs made : List (Bytes × InputValue)}
    (h : makeInputs createTensor dataset rest inputs heap = (.ok made, heap'))
    (hn : (rest.map ValueInfo.name).Nodup)
    (hnew : ∀ input ∈ rest, ∀ e ∈ inputs, e.1 ≠ input.name) :
    (∀ n ∈ owned inputs, n ∈ owned made) ∧
      (∀ n ∈ owned made, n ∈ owned inputs ∨ heap.next ≤ n) ∧
      ∀ n, n ∈ heap'.live → n ∈ heap.live ∨ n ∈ owned made := by
  induction rest generalizing inputs heap with
  | nil =>
    obtain ⟨hmade, rfl⟩ := Prod.mk.inj h
    obtain rfl := Except.ok.inj hmade
    exact ⟨fun _ => id, fun _ => .inl, fun _ => .inl⟩
  | cons input rest ih =>
    have hround := makeInputs_cases createTensor dataset input rest inputs heap
    rw [h] at hround
    cases hround with
    | @goOn call next _ _ _ _ hnext hlive hm =>
      rw [List.map_cons, List.nodup_cons] at hn
      have habsent := hnew input (by simp)
      have howned := fun n => owned_setMember (n := n) habsent
        ⟨heap.next, some call, [heap.next + 1]⟩
      obtain ⟨hkeep, hmade, hall⟩ := ih hm hn.2 fun other hother e he => by
        rcases (Json.mem_setMember habsent _).1 he with rfl | he
        · intro heq
          exact hn.1 (List.mem_map.2 ⟨other, hother, heq.symm⟩)
        · exact hnew other (by simp [hother]) e he
      refine ⟨?_, ?_, ?_⟩
      · intro n hn
        exact hkeep n ((howned n).2 (.inr hn))
      · intro n hn
        rcases hmade n hn with hn | hn
        · rcases (howned n).1 hn with hn | hn
          · right
            simp only [List.mem_cons, List.not_mem_nil, or_false] at hn
            omega
          · exact .inl hn
        · right
          omega
      · intro n hn
        rcases hall n hn with hn | hn
        · rw [hlive, Finset.mem_insert, Finset.mem_insert] at hn
          rcases hn with rfl | rfl | hn
          · exact .inr (hkeep _ ((howned _).2 (.inl (by simp))))
          · exact .inr (hkeep _ ((howned _).2 (.inl (by simp))))
          · exact .inl hn
        · exact .inr hn

theorem foldl_delete_live (ns : List Nat) (heap : Heap) :
    n ∈ (ns.foldl (fun heap n => heap.delete n) heap).live ↔ n ∉ ns ∧ n ∈ heap.live := by
  induction ns generalizing heap with
  | nil => simp
  | cons m ns ih =>
    rw [List.foldl_cons, ih, Heap.delete, Finset.mem_erase, List.mem_cons]
    tauto

theorem delete_live (ctx : ExecutionContext) (heap : Heap) :
    n ∈ (ctx.delete heap).live ↔ n ∉ owned ctx.inputs ∧ n ∈ heap.live := by
  rw [delete]
  generalize ctx.inputs = inputs
  induction inputs generalizing heap with
  | nil => simp [owned]
  | cons p inputs ih =>
    rw [List.foldl_cons, ih, InputValue.delete, Heap.delete, Finset.mem_erase, foldl_delete_live]
    simp only [owned, List.flatMap_cons, List.cons_append, List.mem_cons, List.mem_append]
    tauto

theorem new_delete_live (h : new lib createTensor session json_str heap = (.ok ctx, heap'))
    (hn : (session.inputs.map ValueInfo.name).Nodup) :
    (ctx.delete heap').live = heap.live := by
  obtain ⟨dataset, _, _, hm⟩ := new_ok h
  obtain ⟨_, hmade, hall⟩ := makeInputs_owned hm hn (by simp)
  have hsub := subset_makeInputs createTensor dataset session.inputs [] heap
  rw [hm] at hsub
  ext n
  rw [delete_live]
  constructor
  · rintro ⟨hout, hlive⟩
    exact (hall n hlive).resolve_right hout
  · intro hlive
    refine ⟨fun hin => ?_, hsub hlive⟩
    rcases hmade n hin with hin | hle
    · cases hin
    · exact absurd (heap.below n hlive) (by omega)

/-- A dataset that makes the constructor throw leaves no object behind exactly when it is refused
before the first buffer. -/
theorem new_live_iff (h : (new lib createTensor session json_str heap).1 = .error e) :
    (new lib createTensor session json_str heap).2.live = heap.live ↔
      RejectedAtOnce lib session.inputs json_str := by
  cases hd : datasetOf lib json_str with
  | error e =>
    simp only [new, hd]
    exact iff_of_true trivial (.dataset hd)
  | ok dataset =>
    rw [new_heap hd]
    cases hinputs : session.inputs with
    | nil => simp [new, hd, hinputs, makeInputs] at h
    | cons input rest =>
      rw [makeInputs_live_iff, prepareInput_error_iff, or_assoc]
      constructor
      · exact fun hcause => .firstInput hd rfl hcause
      · intro hrej
        cases hrej with
        | dataset hd' =>
          rw [hd] at hd'
          cases hd'
        | firstInput hd' hin hcause =>
          rw [hd] at hd'
          cases hd'
          cases hin
          exact hcause

def newInt64 (data : Json) : Except Exception ExecutionContext × Heap :=
  new ⟨fun _ => ⟨[], .ok .null⟩, fun _ => []⟩ (fun _ => .ok ())
    (.fresh Session.exampleKey 0 [⟨ascii "X", .int64, [-1], []⟩] [])
    (.object [(ascii "X", data)]) Heap.empty

theorem new_live_iff_number : (newInt64 (.boolean true)).2.live = Heap.empty.live := by
  have hthrow : ∃ e, (newInt64 (.boolean true)).1 = .error e := ⟨_, rfl⟩
  obtain ⟨e, he⟩ := hthrow
  exact (new_live_iff he).2 (.firstInput rfl rfl (.inl rfl))

/-- A string after a number is refused by the conversion, and the vector stays. -/
theorem new_live_ne :
    (∃ e, (newInt64 (.array [.unsigned 1, .string (ascii "x")])).1 = .error e) ∧
      (newInt64 (.array [.unsigned 1, .string (ascii "x")])).2.live ≠ Heap.empty.live :=
  ⟨⟨_, rfl⟩, by decide⟩

end ExecutionContext
end OnnxruntimeServer
