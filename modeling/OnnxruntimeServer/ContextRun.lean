import OnnxruntimeServer.ExecutionContext
import OnnxruntimeServer.BatchedShape

namespace OnnxruntimeServer
set_option autoImplicit true

theorem length_replaceFirst (batch : Int) (shape : List Int) :
    (replaceFirst batch shape).length = shape.length := by
  induction shape with
  | nil => rfl
  | cons s shape ih =>
    rw [replaceFirst]
    split_ifs
    · rfl
    · rw [List.length_cons, ih, List.length_cons]

theorem length_batchedShape (shape : List Int) (count : Nat) :
    (batchedShape shape count).length = shape.length := by
  rw [batchedShape]
  split_ifs
  · exact length_replaceFirst _ _
  · rfl

theorem inputTensor_rank (h : inputTensor dataset input = .ok call) :
    call.shape.length = input.shape.length := by
  obtain ⟨_, htype, hshape, hl, hs, _⟩ := inputTensor_ok h
  by_cases hb : input.element_type = .bool
  · rw [inputTensor_bool h (htype.trans hb), length_batchedShape, hshape]
  · rw [hs hb, hl]

theorem prepareInput_congr (h : dataset.member input.name = dataset'.member input.name) :
    prepareInput dataset input = prepareInput dataset' input := by
  rw [prepareInput, prepareInput, h]

namespace ExecutionContext
variable {session : Session} {inputs made : List (Bytes × InputValue)}

theorem findInput_setMember (name : Bytes) (value : InputValue)
    (inputs : List (Bytes × InputValue)) (k : Bytes) :
    findInput (Json.setMember name value inputs) k =
      if name = k then some value else findInput inputs k := by
  rw [findInput, Json.find_setMember]
  split_ifs <;> rfl

/-- The map has, under the name of an input, the tensor of a call. -/
def Holds (inputs : List (Bytes × InputValue)) (input : ValueInfo) (call : CreateTensor) : Prop :=
  ∃ value, findInput inputs input.name = some value ∧ value.tensors = some call

theorem makeInputs_holds (h : makeInputs createTensor dataset rest inputs heap = (.ok made, heap'))
    (hn : (rest.map ValueInfo.name).Nodup) :
    (∀ k, k ∉ rest.map ValueInfo.name → findInput made k = findInput inputs k) ∧
      ∃ calls, List.Forall₂ (fun input call => inputTensor dataset input = .ok call ∧
        Holds made input call) rest calls := by
  induction rest generalizing inputs heap with
  | nil =>
    obtain ⟨hmade, _⟩ := Prod.mk.inj h
    obtain rfl := Except.ok.inj hmade
    exact ⟨fun _ _ => rfl, [], .nil⟩
  | cons input rest ih =>
    have hround := makeInputs_cases createTensor dataset input rest inputs heap
    rw [h] at hround
    cases hround with
    | @goOn call next _ _ hi _ _ _ hm =>
      rw [List.map_cons, List.nodup_cons] at hn
      obtain ⟨hkeep, calls, hcalls⟩ := ih hm hn.2
      refine ⟨?_, call :: calls, .cons ⟨hi, ?_⟩ hcalls⟩
      · intro k hk
        rw [List.map_cons, List.mem_cons, not_or] at hk
        rw [hkeep k hk.2, findInput_setMember, if_neg (Ne.symm hk.1)]
      · refine ⟨⟨heap.next, some call, [heap.next + 1]⟩, ?_, rfl⟩
        rw [hkeep _ hn.1, findInput_setMember, if_pos rfl]

theorem holds_setMember (h : List.Forall₂ (Holds inputs) infos calls)
    (hn : name ∉ infos.map ValueInfo.name) (value : InputValue) :
    List.Forall₂ (Holds (Json.setMember name value inputs)) infos calls := by
  induction h with
  | nil => exact .nil
  | @cons info call infos calls hinfo _ ih =>
    rw [List.map_cons, List.mem_cons, not_or] at hn
    obtain ⟨value', hf, ht⟩ := hinfo
    refine .cons ⟨value', ?_, ht⟩ (ih hn.2)
    rw [findInput_setMember, if_neg hn.1, hf]

/-- Each tensor is moved out of the map once, in the order of the inputs. -/
theorem takeTensors_of_holds (h : List.Forall₂ (Holds inputs) infos calls)
    (hn : (infos.map ValueInfo.name).Nodup) :
    ∃ inputs', takeTensors infos inputs = some (calls.map some, inputs') := by
  induction infos generalizing inputs calls with
  | nil =>
    cases h
    exact ⟨inputs, rfl⟩
  | cons info infos ih =>
    cases h with
    | @cons _ call _ calls hinfo hinfos =>
      rw [List.map_cons, List.nodup_cons] at hn
      obtain ⟨value, hf, ht⟩ := hinfo
      obtain ⟨inputs', htake⟩ := ih (holds_setMember hinfos hn.1 { value with tensors := none }) hn.2
      refine ⟨inputs', ?_⟩
      rw [takeTensors, hf, Option.bind_eq_bind, Option.bind_some, htake, ht]
      rfl

theorem makeInputs_congr (h : ∀ input ∈ rest, dataset'.member input.name = dataset.member input.name)
    (createTensor : CreateTensor → Except Bytes Unit) (inputs : List (Bytes × InputValue))
    (heap : Heap) :
    makeInputs createTensor dataset' rest inputs heap =
      makeInputs createTensor dataset rest inputs heap := by
  induction rest generalizing inputs heap with
  | nil => rfl
  | cons input rest ih =>
    rw [makeInputs, makeInputs, prepareInput_congr (h input (by simp))]
    simp only [ih fun other hother => h other (by simp [hother])]

/-- A dataset matters to the constructor through its members for the session's inputs only. -/
theorem new_congr (hd : datasetOf lib json_str = .ok dataset)
    (hd' : datasetOf lib json_str' = .ok dataset')
    (h : ∀ input ∈ session.inputs, dataset'.member input.name = dataset.member input.name)
    (createTensor : CreateTensor → Except Bytes Unit) (heap : Heap) :
    new lib createTensor session json_str' heap = new lib createTensor session json_str heap := by
  simp only [new, hd, hd', makeInputs_congr h]

theorem putTensors_find_of_ne {output : List (Bytes × Json)}
    (h : putTensors infos tensors output = .ok result) (hn : ∀ info ∈ infos, info.name ≠ k) :
    (result.find? fun e => e.1 = k) = output.find? fun e => e.1 = k := by
  induction infos generalizing tensors output with
  | nil =>
    cases tensors with
    | nil =>
      obtain rfl := Except.ok.inj h
      rfl
    | cons tensor tensors => cases h
  | cons info infos ih =>
    cases tensors with
    | nil =>
      obtain rfl := Except.ok.inj h
      rfl
    | cons tensor tensors =>
      obtain ⟨items, _, h⟩ := bind_eq_ok.1 h
      rw [ih h fun other hother => hn other (by simp [hother]), Json.find_setMember,
        if_neg (hn info (by simp))]

theorem putTensors_find {output : List (Bytes × Json)} {i : Nat}
    (h : putTensors infos tensors output = .ok result)
    (hi : infos[i]? = some info) (ht : tensors[i]? = some tensor)
    (hlast : ∀ k other, i < k → infos[k]? = some other → other.name ≠ info.name) :
    ∃ items, info.getTensorData tensor = .ok items ∧
      (result.find? fun e => e.1 = info.name) = some (info.name, .array items) := by
  induction i generalizing infos tensors output with
  | zero =>
    obtain ⟨infos, rfl⟩ := List.head?_eq_some_iff.1 (List.head?_eq_getElem? .. ▸ hi)
    obtain ⟨tensors, rfl⟩ := List.head?_eq_some_iff.1 (List.head?_eq_getElem? .. ▸ ht)
    obtain ⟨items, hdata, h⟩ := bind_eq_ok.1 h
    refine ⟨items, hdata, ?_⟩
    rw [putTensors_find_of_ne h, Json.find_setMember, if_pos rfl]
    intro other hother
    obtain ⟨k, hk⟩ := List.mem_iff_getElem?.1 hother
    exact hlast (k + 1) other (Nat.succ_pos k) hk
  | succ i ih =>
    cases infos with
    | nil => simp at hi
    | cons first infos =>
      cases tensors with
      | nil => simp at ht
      | cons tensor' tensors =>
        obtain ⟨items, _, h⟩ := bind_eq_ok.1 h
        exact ih h hi ht fun k other hk hother =>
          hlast (k + 1) other (Nat.succ_lt_succ hk) hother

theorem putTensors_ok_iff (output : List (Bytes × Json)) :
    (∃ result, putTensors infos tensors output = .ok result) ↔
      tensors.length ≤ infos.length ∧ ∀ (i : Nat) info tensor, infos[i]? = some info →
        tensors[i]? = some tensor → ∃ items, info.getTensorData tensor = .ok items := by
  induction infos generalizing tensors output with
  | nil =>
    cases tensors with
    | nil => simp [putTensors]
    | cons tensor tensors => simp [putTensors]
  | cons info infos ih =>
    cases tensors with
    | nil => simp [putTensors]
    | cons tensor tensors =>
      have hrest : (∃ result, putTensors (info :: infos) (tensor :: tensors) output = .ok result) ↔
          ∃ items, info.getTensorData tensor = .ok items ∧ ∃ result,
            putTensors infos tensors (Json.setMember info.name (.array items) output) =
              .ok result := by
        simp only [putTensors, bind_eq_ok]
        exact ⟨fun ⟨r, items, hi, hr⟩ => ⟨items, hi, r, hr⟩,
          fun ⟨items, hi, r, hr⟩ => ⟨r, items, hi, hr⟩⟩
      rw [hrest, List.length_cons, List.length_cons]
      constructor
      · intro h
        obtain ⟨items, hdata, hput⟩ := h
        obtain ⟨hlen, hread⟩ := (ih _).1 hput
        refine ⟨Nat.succ_le_succ hlen, fun i => ?_⟩
        cases i with
        | zero =>
          intro info' tensor' hinfo htensor
          obtain rfl := Option.some.inj hinfo
          obtain rfl := Option.some.inj htensor
          exact ⟨items, hdata⟩
        | succ i => exact hread i
      · intro h
        obtain ⟨hlen, hread⟩ := h
        obtain ⟨items, hdata⟩ := hread 0 info tensor rfl rfl
        exact ⟨items, hdata, (ih _).2 ⟨Nat.le_of_succ_le_succ hlen, fun i => hread (i + 1)⟩⟩

theorem tensorsToJson_ok_iff (ctx : ExecutionContext) (tensors : List OutputTensor) :
    (∃ output, ctx.tensorsToJson tensors = .ok output) ↔
      ∃ result, putTensors ctx.session.outputs tensors [] = .ok result := by
  simp [tensorsToJson, bind_eq_ok]

def ofOrt : Except Bytes (List OutputTensor) → Except Exception (List OutputTensor)
  | .ok tensors => .ok tensors
  | .error what => .error (exception .stdException what)

theorem run_of_new (hs : session.Initialized) (hn : (session.inputs.map ValueInfo.name).Nodup)
    (hc : new lib createTensor session json_str heap = (.ok ctx, heap')) :
    ∃ dataset calls, datasetOf lib json_str = .ok dataset ∧ ctx.session = session ∧
      List.Forall₂ (fun input call => inputTensor dataset input = .ok call) session.inputs calls ∧
      ∀ ort : OrtRun, ∃ ctx', ctx.run ort = some (ofOrt (ort session.ort_session
        session.inputNames (calls.map some) session.outputNames), ctx') := by
  obtain ⟨dataset, hd, rfl, hm⟩ := new_ok hc
  obtain ⟨_, calls, hcalls⟩ := makeInputs_holds hm hn
  obtain ⟨inputs', htake⟩ := takeTensors_of_holds (hcalls.imp fun _ _ h => h.2) hn
  refine ⟨dataset, calls, hd, rfl, hcalls.imp fun _ _ h => h.1, fun ort =>
    ⟨{ ctx with inputs := inputs' }, ?_⟩⟩
  have hlen : (calls.map some).length = ctx.session.inputCount := by
    rw [List.length_map, ← hcalls.length_eq, hs.inputCount]
  have hpass : ctx.session.run ort (calls.map some) = ofOrt (ort ctx.session.ort_session
      ctx.session.inputNames (calls.map some) ctx.session.outputNames) := by
    rw [Session.run, if_neg (not_not.2 hlen)]
    cases ort ctx.session.ort_session ctx.session.inputNames (calls.map some)
      ctx.session.outputNames <;> rfl
  rw [run, htake, Option.bind_eq_bind, Option.bind_some, ← hpass]

/-- Inputs are bound by name and passed by position, and so are outputs: whatever else is in the
dataset, the tensor at a position is that of the member with the name declared there, and an
output's name finds the tensor returned at its position. There is an output exactly where no more
tensors are returned than declared, and each of them can be read. -/
theorem run_binds_names (hs : session.Initialized)
    (hn : (session.inputs.map ValueInfo.name).Nodup)
    (hc : new lib createTensor session json_str heap = (.ok ctx, heap')) :
    (∃ dataset, ∃ calls : List CreateTensor, datasetOf lib json_str = .ok dataset ∧
      calls.length = session.inputCount ∧
      (∀ ort : OrtRun, ∃ ctx', ctx.run ort = some (ofOrt (ort session.ort_session
        session.inputNames (calls.map some) session.outputNames), ctx')) ∧
      (∀ (i : Nat) input, session.inputs[i]? = some input → ∃ call, calls[i]? = some call ∧
        session.inputNames[i]? = some input.name ∧ inputTensor dataset input = .ok call ∧
        call.info.name = input.name ∧ call.info.element_type = input.element_type ∧
        call.shape.length = input.shape.length) ∧
      ∀ json_str' dataset', datasetOf lib json_str' = .ok dataset' →
        (∀ input ∈ session.inputs, dataset'.member input.name = dataset.member input.name) →
        new lib createTensor session json_str' heap = (.ok ctx, heap')) ∧
    (∀ tensors, (∃ output, ctx.tensorsToJson tensors = .ok output) ↔
      tensors.length ≤ session.outputs.length ∧ ∀ (i : Nat) info tensor,
        session.outputs[i]? = some info → tensors[i]? = some tensor →
          ∃ items, info.getTensorData tensor = .ok items) ∧
    ∀ tensors output, ctx.tensorsToJson tensors = .ok output →
      ∀ (i : Nat) info tensor, session.outputs[i]? = some info → tensors[i]? = some tensor →
        (∀ (k : Nat) other, i < k → session.outputs[k]? = some other → other.name ≠ info.name) →
        session.outputNames[i]? = some info.name ∧
          ∃ items, info.getTensorData tensor = .ok items ∧
            output.find info.name = some (.array items) := by
  obtain ⟨dataset, calls, hd, rfl, hcalls, hrun⟩ := run_of_new hs hn hc
  refine ⟨⟨dataset, calls, hd, hcalls.length_eq.symm.trans hs.inputCount.symm, hrun, ?_, ?_⟩, ?_, ?_⟩
  · intro i input hi
    obtain ⟨call, hcall, htensor⟩ := forall₂_getElem? hcalls hi
    obtain ⟨hname, htype, _⟩ := inputTensor_ok htensor
    refine ⟨call, hcall, ?_, htensor, hname, htype, inputTensor_rank htensor⟩
    rw [hs.inputNames, List.getElem?_map, hi]
    rfl
  · intro json_str' dataset' hd' hmember
    rw [new_congr hd hd' hmember, hc]
  · intro tensors
    rw [tensorsToJson_ok_iff, putTensors_ok_iff]
  · intro tensors output h i info tensor hi ht hlast
    obtain ⟨result, hput, h⟩ := bind_eq_ok.1 h
    obtain rfl := Except.ok.inj h
    obtain ⟨items, hdata, hfind⟩ := putTensors_find hput hi ht hlast
    refine ⟨?_, items, hdata, ?_⟩
    · rw [hs.outputNames, List.getElem?_map, hi]
      rfl
    · rw [Json.find, hfind]
      rfl

def pairSession : Session :=
  .fresh Session.exampleKey 0
    [⟨ascii "B", .int64, [-1], []⟩, ⟨ascii "A", .int64, [-1], []⟩]
    [⟨ascii "Y", .int64, [-1], []⟩, ⟨ascii "X", .int64, [-1], []⟩]

def pairDataset : Json :=
  .object [(ascii "A", .array [.unsigned 1]), (ascii "B", .array [.unsigned 2])]

def pairLib : JsonLibrary := ⟨fun _ => ⟨[], .ok .null⟩, fun _ => []⟩

def oneTensor (i : Int64) : OutputTensor :=
  ⟨[1], fun _ => i, fun _ => 0, fun _ => 0, fun _ => .nan, fun _ => false, fun _ => []⟩

theorem run_binds_names_pair :
    ∃ ctx heap, new pairLib (fun _ => .ok ()) pairSession pairDataset Heap.empty = (.ok ctx, heap) ∧
      (∃ calls : List CreateTensor, calls.length = pairSession.inputCount ∧
        (∀ ort : OrtRun, ∃ ctx', ctx.run ort = some (ofOrt (ort pairSession.ort_session
          pairSession.inputNames (calls.map some) pairSession.outputNames), ctx')) ∧
        ∃ call, calls[0]? = some call ∧ pairSession.inputNames[0]? = some (ascii "B") ∧
          call.info.name = ascii "B") ∧
      ∃ output, ctx.tensorsToJson [oneTensor 5, oneTensor 7] = .ok output ∧
        output.find (ascii "Y") = some (.array [.integer 5]) := by
  have hs : pairSession.Initialized := Session.initialized_fresh _ _ _ _
  have hn : (pairSession.inputs.map ValueInfo.name).Nodup := by decide
  have hc : ∃ ctx heap, new pairLib (fun _ => .ok ()) pairSession pairDataset Heap.empty =
      (.ok ctx, heap) := ⟨_, _, rfl⟩
  obtain ⟨ctx, heap, hc⟩ := hc
  obtain ⟨⟨dataset, calls, _, hlen, hrun, hcalls, _⟩, hreturns, hfind⟩ := run_binds_names hs hn hc
  obtain ⟨call, hcall, hinput, _, hname, _⟩ := hcalls 0 _ rfl
  have hread : ∀ info ∈ pairSession.outputs, ∀ tensor ∈ [oneTensor 5, oneTensor 7],
      ∃ items, info.getTensorData tensor = .ok items := by
    simp [pairSession, Session.fresh, getTensorData_ok_iff, oneTensor]
  obtain ⟨output, houtput⟩ := (hreturns [oneTensor 5, oneTensor 7]).2 ⟨le_rfl,
    fun i info tensor hi ht => hread info (List.mem_of_getElem? hi) tensor (List.mem_of_getElem? ht)⟩
  obtain ⟨_, items, hdata, hitems⟩ := hfind _ output houtput 0 _ _ rfl rfl
    fun k other hk hother => by
      obtain rfl : k = 1 := by
        have hlt : k < pairSession.outputs.length := (List.getElem?_eq_some_iff.1 hother).1
        change k < 2 at hlt
        omega
      obtain rfl := Option.some.inj hother
      decide
  obtain rfl : items = [.integer 5] := (Except.ok.inj hdata).symm
  exact ⟨ctx, heap, hc, ⟨calls, hlen, hrun, call, hcall, hinput, hname⟩, output, houtput, hitems⟩

end ExecutionContext
end OnnxruntimeServer
