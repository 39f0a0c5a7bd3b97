import OnnxruntimeServer.Session

namespace OnnxruntimeServer
set_option autoImplicit true

/-- The objects that `new` has made and nothing has deleted, as numbers in the order of making. -/
structure Heap where
  live : Finset Nat
  next : Nat
  below : ∀ n ∈ live, n < next

namespace Heap

def empty : Heap := ⟨∅, 0, by simp⟩

/-- `new`: an object that was not there before. -/
def alloc (heap : Heap) : Nat × Heap :=
  (heap.next, ⟨insert heap.next heap.live, heap.next + 1, fun n hn => by
    rcases Finset.mem_insert.1 hn with rfl | hn
    · exact Nat.lt_succ_self _
    · exact (heap.below n hn).trans (Nat.lt_succ_self _)⟩)

/-- `delete` and `delete[]`. -/
def delete (n : Nat) (heap : Heap) : Heap :=
  ⟨heap.live.erase n, heap.next, fun m hm => heap.below m (Finset.mem_of_mem_erase hm)⟩

theorem next_notMem (heap : Heap) : heap.next ∉ heap.live :=
  fun h => lt_irrefl _ (heap.below _ h)

end Heap

/-- `execution::input_value`: its own address, its tensor unless that was moved from, and the
buffers that its deallocators delete. -/
structure InputValue where
  address : Nat
  tensors : Option CreateTensor
  deallocators : List Nat

namespace InputValue

/-- `new input_value(..)`. Where the constructor throws, the object is given back, but what the
constructor itself has made is not: its deallocator is registered after the last step that can
throw, and the destructor does not run. -/
def new (createTensor : CreateTensor → Except Bytes Unit) (info : ValueInfo)
    (json_value : List Json) (heap : Heap) : Except Exception InputValue × Heap :=
  let (address, heap) := heap.alloc
  match info.element_type.get? with
  | none => (.error (badRequestError (ascii "Not supported type: " ++ info.element_type.typeName)),
    heap.delete address)
  | some get =>
    let (buffer, heap) := heap.alloc
    match json_value.mapM get with
    | .error e => (.error e, heap.delete address)
    | .ok values =>
      let call : CreateTensor := ⟨info, values,
        if info.element_type = .bool then batchedShape info.shape json_value.length
        else info.input_shape⟩
      match createTensor call with
      | .error what => (.error (exception .stdException what), heap.delete address)
      | .ok _ => (.ok ⟨address, some call, [buffer]⟩, heap)

/-- `delete` of an `input_value`, whose destructor calls the deallocators. -/
def delete (value : InputValue) (heap : Heap) : Heap :=
  (value.deallocators.foldl (fun heap n => heap.delete n) heap).delete value.address

end InputValue

/-- The checks of a round of the constructor's loop, and what it makes an `input_value` from. -/
def prepareInput (dataset : Json) (input : ValueInfo) : Except Exception (ValueInfo × List Json) :=
  let data := dataset.member input.name
  if !data.isArray then
    .error (badRequestError (ascii "Input " ++ input.name ++ ascii " is not array"))
  else
    let json_values := flatJsonValues data []
    let input_shape := calcShape data input.shape.length []
    if input_shape.length ≠ input.shape.length then
      .error (badRequestError (ascii "Input " ++ input.name ++ ascii " has tensor rank " ++
        ascii (toString input_shape.length) ++ ascii " but the model expects rank " ++
        ascii (toString input.shape.length)))
    else .ok ({ input with input_shape }, json_values)

/-- `execution::context` with the map of its inputs. -/
structure ExecutionContext where
  session : Session
  inputs : List (Bytes × InputValue)

namespace ExecutionContext

def findInput (inputs : List (Bytes × InputValue)) (name : Bytes) : Option InputValue :=
  (inputs.find? fun e => e.1 = name).map Prod.snd

/-- The constructor's loop. The map holds plain pointers, so an exception loses what they are to. -/
def makeInputs (createTensor : CreateTensor → Except Bytes Unit) (dataset : Json) :
    List ValueInfo → List (Bytes × InputValue) → Heap →
      Except Exception (List (Bytes × InputValue)) × Heap
  | [], inputs, heap => (.ok inputs, heap)
  | input :: rest, inputs, heap =>
    match prepareInput dataset input with
    | .error e => (.error e, heap)
    | .ok (info, json_values) =>
      match InputValue.new createTensor info json_values heap with
      | (.error e, heap) => (.error e, heap)
      | (.ok value, heap) =>
        makeInputs createTensor dataset rest (Json.setMember info.name value inputs) heap

/-- The constructor. Where it throws, the destructor does not run. -/
def new (lib : JsonLibrary) (createTensor : CreateTensor → Except Bytes Unit) (session : Session)
    (json_str : Json) (heap : Heap) : Except Exception ExecutionContext × Heap :=
  match datasetOf lib json_str with
  | .error e => (.error e, heap)
  | .ok dataset =>
    match makeInputs createTensor dataset session.inputs [] heap with
    | (.error e, heap) => (.error e, heap)
    | (.ok inputs, heap) => (.ok ⟨session, inputs⟩, heap)

/-- The destructor. -/
def delete (ctx : ExecutionContext) (heap : Heap) : Heap :=
  ctx.inputs.foldl (fun heap p => p.2.delete heap) heap

/-- The tensors moved out of the map, in the order of the session's inputs. A name that is not in
the map would be a null pointer. -/
def takeTensors : List ValueInfo → List (Bytes × InputValue) →
    Option (List (Option CreateTensor) × List (Bytes × InputValue))
  | [], inputs => some ([], inputs)
  | info :: infos, inputs => do
    let value ← findInput inputs info.name
    let (tensors, inputs) ← takeTensors infos
      (Json.setMember info.name { value with tensors := none } inputs)
    some (value.tensors :: tensors, inputs)

def run (ort : OrtRun) (ctx : ExecutionContext) :
    Option (Except Exception (List OutputTensor) × ExecutionContext) := do
  let (input_values, inputs) ← takeTensors ctx.session.inputs ctx.inputs
  some (ctx.session.run ort input_values, { ctx with inputs })

/-- The loop of `tensors_to_json` from some position on. -/
def putTensors : List ValueInfo → List OutputTensor → List (Bytes × Json) →
    Except Fault (List (Bytes × Json))
  | _, [], output => .ok output
  | [], _ :: _, _ => .error .outOfBounds
  | info :: infos, item :: tensors, output => do
    let data ← info.getTensorData item
    putTensors infos tensors (Json.setMember info.name (.array data) output)

def tensorsToJson (ctx : ExecutionContext) (tensors : List OutputTensor) : Except Fault Json := do
  let output ← putTensors ctx.session.outputs tensors []
  .ok (.object output)

end ExecutionContext

theorem inputTensor_eq (dataset : Json) (input : ValueInfo) :
    inputTensor dataset input = (prepareInput dataset input).bind fun p => inputValue p.1 p.2 := by
  rw [inputTensor, prepareInput]
  dsimp only
  split
  · rfl
  · split <;> rfl

theorem prepareInput_ok (h : prepareInput dataset input = .ok (info, json_values)) :
    info.name = input.name ∧ info.element_type = input.element_type ∧ info.shape = input.shape := by
  rw [prepareInput] at h
  dsimp only at h
  split at h
  · cases h
  · split at h
    · cases h
    · obtain ⟨rfl, rfl⟩ := Prod.mk.inj (Except.ok.inj h)
      exact ⟨rfl, rfl, rfl⟩

/-- How `new input_value(..)` can end, and what is live then. -/
inductive NewInput (createTensor : CreateTensor → Except Bytes Unit) (info : ValueInfo)
    (json_value : List Json) (heap : Heap) : Except Exception InputValue → Heap → Prop where
  | unsupported : info.element_type.get? = none → inputValue info json_value = .error e →
    heap'.live = heap.live →
    NewInput createTensor info json_value heap (.error e) heap'
  | conversion : info.element_type.get? ≠ none → inputValue info json_value = .error e →
    heap'.live = insert (heap.next + 1) heap.live →
    NewInput createTensor info json_value heap (.error e) heap'
  | refused : inputValue info json_value = .ok call → createTensor call = .error what →
    heap'.live = insert (heap.next + 1) heap.live →
    NewInput createTensor info json_value heap (.error (exception .stdException what)) heap'
  | made : inputValue info json_value = .ok call → createTensor call = .ok () →
    heap'.next = heap.next + 2 →
    heap'.live = insert (heap.next + 1) (insert heap.next heap.live) →
    NewInput createTensor info json_value heap (.ok ⟨heap.next, some call, [heap.next + 1]⟩) heap'

theorem InputValue.new_cases (createTensor : CreateTensor → Except Bytes Unit) (info : ValueInfo)
    (json_value : List Json) (heap : Heap) :
    NewInput createTensor info json_value heap (InputValue.new createTensor info json_value heap).1
      (InputValue.new createTensor info json_value heap).2 := by
  have hfresh := heap.next_notMem
  have hback : ((insert (heap.next + 1) (insert heap.next heap.live)).erase heap.next) =
      insert (heap.next + 1) heap.live := by
    rw [Finset.erase_insert_of_ne (Nat.succ_ne_self _), Finset.erase_insert hfresh]
  rw [InputValue.new]
  cases hget : info.element_type.get? with
  | none =>
    have he := inputValue.eq_def info json_value
    rw [hget] at he
    exact .unsupported hget he (Finset.erase_insert hfresh)
  | some get =>
    have hsome : info.element_type.get? ≠ none := hget ▸ Option.some_ne_none get
    cases hv : json_value.mapM get with
    | error e =>
      have he : inputValue info json_value = .error e := by simp only [inputValue, hget, hv]; rfl
      simp only [hv]
      exact .conversion hsome he hback
    | ok values =>
      have hi : inputValue info json_value = .ok ⟨info, values,
          if info.element_type = .bool then batchedShape info.shape json_value.length
          else info.input_shape⟩ := by
        simp only [inputValue, hget, hv]
        rfl
      simp only [hv]
      generalize (if info.element_type = .bool then batchedShape info.shape json_value.length
        else info.input_shape) = shape at hi ⊢
      cases hc : createTensor ⟨info, values, shape⟩ with
      | error what => exact .refused hi hc hback
      | ok _ => exact .made hi hc rfl rfl

namespace ExecutionContext
variable {session : Session} {inputs made : List (Bytes × InputValue)}

/-- How a round of the constructor's loop can go: it throws, with what is live then, or it goes on
with one more input in the map. -/
inductive Round (createTensor : CreateTensor → Except Bytes Unit) (dataset : Json)
    (input : ValueInfo) (rest : List ValueInfo) (inputs : List (Bytes × InputValue)) (heap : Heap) :
    Except Exception (List (Bytes × InputValue)) → Heap → Prop where
  | rejected : prepareInput dataset input = .error e ∨ input.element_type.get? = none →
    inputTensor dataset input = .error e → heap'.live = heap.live →
    Round createTensor dataset input rest inputs heap (.error e) heap'
  | thrown : ¬ (∃ e, prepareInput dataset input = .error e) → input.element_type.get? ≠ none →
    (inputTensor dataset input = .error e ∨
      ∃ call what, inputTensor dataset input = .ok call ∧ createTensor call = .error what ∧
        e = exception .stdException what) →
    heap'.live = insert (heap.next + 1) heap.live →
    Round createTensor dataset input rest inputs heap (.error e) heap'
  | goOn : inputTensor dataset input = .ok call → createTensor call = .ok () →
    next.next = heap.next + 2 →
    next.live = insert (heap.next + 1) (insert heap.next heap.live) →
    makeInputs createTensor dataset rest
      (Json.setMember input.name ⟨heap.next, some call, [heap.next + 1]⟩ inputs) next =
        (res, heap') →
    Round createTensor dataset input rest inputs heap res heap'

theorem makeInputs_cases (createTensor : CreateTensor → Except Bytes Unit) (dataset : Json)
    (input : ValueInfo) (rest : List ValueInfo) (inputs : List (Bytes × InputValue)) (heap : Heap) :
    Round createTensor dataset input rest inputs heap
      (makeInputs createTensor dataset (input :: rest) inputs heap).1
      (makeInputs createTensor dataset (input :: rest) inputs heap).2 := by
  have hinput := inputTensor_eq dataset input
  rw [makeInputs]
  cases hp : prepareInput dataset input with
  | error e =>
    rw [hp] at hinput
    exact .rejected (.inl hp) hinput rfl
  | ok p =>
    obtain ⟨info, json_values⟩ := p
    obtain ⟨hname, htype, _⟩ := prepareInput_ok hp
    have hprep : ¬ ∃ e, prepareInput dataset input = .error e := by
      rintro ⟨e, he⟩
      rw [hp] at he
      cases he
    rw [hp] at hinput
    change inputTensor dataset input = inputValue info json_values at hinput
    have hnew := InputValue.new_cases createTensor info json_values heap
    simp only
    revert hnew
    rcases InputValue.new createTensor info json_values heap with ⟨res, heap'⟩
    intro hnew
    cases hnew with
    | unsupported hget hi hlive =>
      exact .rejected (.inr (htype ▸ hget)) (hinput.trans hi) hlive
    | conversion hget hi hlive =>
      exact .thrown hprep (htype ▸ hget) (.inl (hinput.trans hi)) hlive
    | refused hi hc hlive =>
      obtain ⟨_, _, get, hget, _⟩ := inputValue_ok hi
      have hsome : input.element_type.get? ≠ none := by
        rw [← htype, hget]
        exact Option.some_ne_none get
      exact .thrown hprep hsome (.inr ⟨_, _, hinput.trans hi, hc, rfl⟩) hlive
    | made hi hc hnext hlive =>
      rw [hname]
      exact .goOn (hinput.trans hi) hc hnext hlive rfl

/-- The constructor returns and throws as `context` says. -/
theorem makeInputs_result (createTensor : CreateTensor → Except Bytes Unit) (dataset : Json)
    (rest : List ValueInfo) (inputs : List (Bytes × InputValue)) (heap : Heap) :
    (makeInputs createTensor dataset rest inputs heap).1.map (fun _ => ()) =
      (inputTensors createTensor dataset rest).result.map fun _ => () := by
  induction rest generalizing inputs heap with
  | nil => rfl
  | cons input rest ih =>
    have hround := makeInputs_cases createTensor dataset input rest inputs heap
    revert hround
    generalize makeInputs createTensor dataset (input :: rest) inputs heap = r
    intro hround
    rw [inputTensors]
    obtain ⟨res, heap'⟩ := r
    cases hround with
    | rejected _ hi _ =>
      simp only [hi]
      rfl
    | thrown _ _ hi _ =>
      rcases hi with hi | ⟨call, what, hi, hc, rfl⟩
      · simp only [hi]
        rfl
      · simp only [hi, hc]
        rfl
    | @goOn call next _ _ hi hc _ _ hm =>
      have hrest := ih (Json.setMember input.name ⟨heap.next, some call, [heap.next + 1]⟩ inputs)
        next
      rw [hm] at hrest
      simp only [hi, hc, hrest]
      cases (inputTensors createTensor dataset rest).result <;> rfl

theorem new_result (lib : JsonLibrary) (createTensor : CreateTensor → Except Bytes Unit)
    (session : Session) (json_str : Json) (heap : Heap) :
    (new lib createTensor session json_str heap).1.map (fun _ => ()) =
      (context lib createTensor session.inputs json_str).result.map fun _ => () := by
  rw [new, context]
  cases datasetOf lib json_str with
  | error e => rfl
  | ok dataset =>
    have hm := makeInputs_result createTensor dataset session.inputs [] heap
    simp only [← hm]
    rcases makeInputs createTensor dataset session.inputs [] heap with ⟨res, heap'⟩
    cases res <;> rfl

theorem new_heap (hd : datasetOf lib json_str = .ok dataset)
    (createTensor : CreateTensor → Except Bytes Unit) (session : Session) (heap : Heap) :
    (new lib createTensor session json_str heap).2 =
      (makeInputs createTensor dataset session.inputs [] heap).2 := by
  simp only [new, hd]
  rcases makeInputs createTensor dataset session.inputs [] heap with ⟨_ | _, _⟩ <;> rfl

theorem new_ok (h : new lib createTensor session json_str heap = (.ok ctx, heap')) :
    ∃ dataset, datasetOf lib json_str = .ok dataset ∧ ctx.session = session ∧
      makeInputs createTensor dataset session.inputs [] heap = (.ok ctx.inputs, heap') := by
  rw [new] at h
  cases hd : datasetOf lib json_str with
  | error e => simp [hd] at h
  | ok dataset =>
    simp only [hd] at h
    split at h
    · cases h
    · rename_i inputs heap₁ hm
      obtain ⟨hctx, rfl⟩ := Prod.mk.inj h
      obtain rfl := Except.ok.inj hctx
      exact ⟨dataset, rfl, rfl, hm⟩

end ExecutionContext
end OnnxruntimeServer
