import OnnxruntimeServer.ValueInfo

namespace OnnxruntimeServer
set_option autoImplicit true

/-- An element of a tensor buffer. A floating-point element keeps the value it was converted
from; its rounding is not computed here. -/
inductive Scalar where
  | int (i : Int)
  | real (type : ElementType) (source : Json)
  | bool (b : Bool)
  | string (s : Bytes)
  | undefined
  deriving Inhabited

/-- The integral part of a finite `double`. -/
def Double.truncate : Double → Option Int
  | .finite neg mant exp =>
    let magnitude : Nat := if 0 ≤ exp then mant * 2 ^ exp.toNat else mant / 2 ^ (-exp).toNat
    some (if neg then -magnitude else magnitude)
  | _ => none

/-- `static_cast` to an integer type of `bits` bits. -/
def wrap (signed : Bool) (bits : Nat) (i : Int) : Int :=
  if signed then i.bmod (2 ^ bits) else i % 2 ^ bits

def typeError (expected : Bytes) (j : Json) : Exception :=
  jsonException (ascii "type_error.302")
    (ascii "type must be " ++ expected ++ ascii ", but is " ++ j.typeName)

/-- `get<T>()` for an integer type. The types that json itself stores refuse a boolean. A
`double` whose integral part is out of range has no defined conversion. -/
def getInteger (signed : Bool) (bits : Nat) (boolean : Bool) (j : Json) : Except Exception Scalar :=
  match j with
  | .integer i => .ok (.int (wrap signed bits i.toInt))
  | .unsigned n => .ok (.int (wrap signed bits n.toNat))
  | .float x =>
    match x.truncate with
    | some i => .ok (if wrap signed bits i = i then .int i else .undefined)
    | none => .ok .undefined
  | .boolean b =>
    if boolean then .ok (.int b.toNat) else .error (typeError (ascii "number") j)
  | j => .error (typeError (ascii "number") j)

def getReal (type : ElementType) (boolean : Bool) (j : Json) : Except Exception Scalar :=
  match j with
  | .integer _ | .unsigned _ | .float _ => .ok (.real type j)
  | .boolean _ => if boolean then .ok (.real type j) else .error (typeError (ascii "number") j)
  | j => .error (typeError (ascii "number") j)

def getBool (j : Json) : Except Exception Scalar :=
  match j with
  | .boolean b => .ok (.bool b)
  | j => .error (typeError (ascii "boolean") j)

def getString (j : Json) : Except Exception Scalar :=
  match j with
  | .string s => .ok (.string s)
  | j => .error (typeError (ascii "string") j)

/-- The cases of `input_value`: how an element of each supported type is read. -/
def ElementType.get? : ElementType → Option (Json → Except Exception Scalar)
  | .float => some (getReal .float true)
  | .double => some (getReal .double false)
  | .int8 => some (getInteger true 8 true)
  | .int16 => some (getInteger true 16 true)
  | .int32 => some (getInteger true 32 true)
  | .int64 => some (getInteger true 64 false)
  | .uint8 => some (getInteger false 8 true)
  | .uint16 => some (getInteger false 16 true)
  | .uint32 => some (getInteger false 32 true)
  | .uint64 => some (getInteger false 64 false)
  | .bool => some getBool
  | .bfloat16 => some (getReal .bfloat16 true)
  | .float16 => some (getReal .float16 true)
  | .string => some getString
  | _ => none

/-- One step of the batch computation: `max(1, ceil(batch / s))`, exact as long as `double` is.
By 0 the quotient is a NaN or an infinity. A NaN and the negative one give 1, and the conversion
of the positive one is the smallest `int64_t`. -/
def batchStep (batch s : Int) : Int :=
  if s = 0 then if batch ≤ 0 then 1 else -2 ^ 63
  else max 1 (-((-batch).fdiv s))

def replaceFirst (batch : Int) : List Int → List Int
  | [] => []
  | s :: shape => if s = -1 then batch :: shape else s :: replaceFirst batch shape

def batchedShape (shape : List Int) (value_count : Nat) : List Int :=
  if shape.contains (-1) then
    replaceFirst (shape.foldl (fun batch s => if s ≠ -1 then batchStep batch s else batch) value_count)
      shape
  else shape

/-- The arguments of one call of `Ort::Value::CreateTensor`, and the input it is made for. -/
structure CreateTensor where
  info : ValueInfo
  values : List Scalar
  shape : List Int

/-- `input_value::input_value` up to its call of `CreateTensor`. -/
def inputValue (info : ValueInfo) (json_value : List Json) : Except Exception CreateTensor :=
  match info.element_type.get? with
  | none => .error (badRequestError (ascii "Not supported type: " ++ info.element_type.typeName))
  | some get => do
    let values ← json_value.mapM get
    .ok ⟨info, values,
      if info.element_type = .bool then batchedShape info.shape json_value.length
      else info.input_shape⟩

/-- `calcShape`. The test after the loop compares sizes as `size_t`: for `count` 0 its right side
is the largest one, which no vector reaches, and the integers differ there as well. -/
def calcShape (data : Json) (count : Int) (input_shape : List Int) : List Int :=
  let input_shape := match data with
    | .array (item :: items) =>
      if count ≠ 0 then
        calcShape item (count - 1) (input_shape ++ [((item :: items).length : Int)])
      else input_shape
    | _ => input_shape
  if (input_shape.length : Int) = count - 1 then input_shape ++ [1] else input_shape
termination_by structural data

mutual
def flatJsonValues (data : Json) (json_values : List Json) : List Json :=
  match data with
  | .array items => flatItems items json_values
  | _ => json_values ++ [data]
termination_by structural data

def flatItems (items : List Json) (json_values : List Json) : List Json :=
  match items with
  | [] => json_values
  | item :: items => flatItems items (flatJsonValues item json_values)
termination_by structural items
end

/-- One round of the constructor's loop, up to the call of `CreateTensor`. -/
def inputTensor (dataset : Json) (input : ValueInfo) : Except Exception CreateTensor :=
  let data := dataset.member input.name
  if !data.isArray then
    .error (badRequestError (ascii "Input " ++ input.name ++ ascii " is not array"))
  else
    let json_values := flatJsonValues data []
    let input_shape := calcShape data input.shape.length []
    if input_shape.length ≠ input.shape.length then
      .error (badRequestError (ascii "Input " ++ input.name ++ ascii " has tensor rank " ++
        ascii (toString input_shape.length) ++ ascii " but the model expects rank " ++
        ascii (toString input.shape.length)))
    else inputValue { input with input_shape } json_values

/-- What the constructor does: the calls of `CreateTensor` it makes, in order, and its outcome. -/
structure Construction where
  calls : List CreateTensor
  result : Except Exception (List CreateTensor)

/-- The loop over the session's inputs; `createTensor` is ORT's verdict on a call. -/
def inputTensors (createTensor : CreateTensor → Except Bytes Unit) (dataset : Json) :
    List ValueInfo → Construction
  | [] => ⟨[], .ok []⟩
  | input :: inputs =>
    match inputTensor dataset input with
    | .error e => ⟨[], .error e⟩
    | .ok call =>
      match createTensor call with
      | .error what => ⟨[call], .error (exception .stdException what)⟩
      | .ok _ =>
        let rest := inputTensors createTensor dataset inputs
        ⟨call :: rest.calls, rest.result.map (call :: ·)⟩

/-- The dataset that the constructor works on: a string is parsed once more. -/
def datasetOf (lib : JsonLibrary) (json_str : Json) : Except Exception Json := do
  let dataset ← match json_str with
    | .string body => parseRequestJson lib body
    | j => .ok j
  if !dataset.isObject then
    .error (badRequestError (ascii "Top-level JSON dataset is not object"))
  else .ok dataset

/-- `execution::context::context`. -/
def context (lib : JsonLibrary) (createTensor : CreateTensor → Except Bytes Unit)
    (inputs : List ValueInfo) (json_str : Json) : Construction :=
  match datasetOf lib json_str with
  | .error e => ⟨[], .error e⟩
  | .ok dataset => inputTensors createTensor dataset inputs

theorem mapM_forall₂ {f : α → Except ε β} (h : xs.mapM f = .ok ys) :
    List.Forall₂ (fun x y => f x = .ok y) xs ys := by
  induction xs generalizing ys with
  | nil =>
    cases h
    exact .nil
  | cons x xs ih =>
    rw [List.mapM_cons] at h
    cases hx : f x with
    | error e => simp [hx, bind, Except.bind] at h
    | ok y =>
      cases hxs : xs.mapM f with
      | error e => simp [hx, hxs, bind, Except.bind] at h
      | ok ys' =>
        simp only [hx, hxs, bind, Except.bind, pure, Except.pure, Except.ok.injEq] at h
        subst h
        exact .cons hx (ih hxs)

theorem inputValue_ok (h : inputValue info json_value = .ok call) :
    call.info = info ∧ (info.element_type ≠ .bool → call.shape = info.input_shape) ∧
      ∃ get, info.element_type.get? = some get ∧ json_value.mapM get = .ok call.values := by
  rw [inputValue] at h
  cases hget : info.element_type.get? with
  | none => simp [hget] at h
  | some get =>
    cases hv : json_value.mapM get with
    | error e => simp [hget, hv, bind, Except.bind] at h
    | ok values =>
      simp only [hget, hv, bind, Except.bind, Except.ok.injEq] at h
      subst h
      exact ⟨rfl, fun hb => if_neg hb, get, rfl, hv⟩

theorem inputTensor_ok (h : inputTensor dataset input = .ok call) :
    call.info.name = input.name ∧ call.info.element_type = input.element_type ∧
      call.info.shape = input.shape ∧
      (calcShape (dataset.member input.name) input.shape.length []).length = input.shape.length ∧
      (input.element_type ≠ .bool →
        call.shape = calcShape (dataset.member input.name) input.shape.length []) ∧
      ∃ get, input.element_type.get? = some get ∧
        (flatJsonValues (dataset.member input.name) []).mapM get = .ok call.values := by
  rw [inputTensor] at h
  split at h
  · cases h
  · dsimp only at h
    split at h
    · cases h
    · rename_i hrank
      obtain ⟨hi, hs, hget⟩ := inputValue_ok h
      refine ⟨?_, ?_, ?_, not_not.1 hrank, hs, hget⟩
      · rw [hi]
      · rw [hi]
      · rw [hi]

theorem inputTensors_calls (h : call ∈ (inputTensors createTensor dataset inputs).calls) :
    ∃ input ∈ inputs, inputTensor dataset input = .ok call := by
  induction inputs with
  | nil => cases h
  | cons input inputs ih =>
    rw [inputTensors] at h
    cases hi : inputTensor dataset input with
    | error e => simp [hi] at h
    | ok made =>
      cases hc : createTensor made with
      | error what =>
        simp only [hi, hc, List.mem_singleton] at h
        exact ⟨input, by simp, h ▸ hi⟩
      | ok _ =>
        simp only [hi, hc, List.mem_cons] at h
        rcases h with rfl | h
        · exact ⟨input, by simp, hi⟩
        · obtain ⟨input', hmem, hcall⟩ := ih h
          exact ⟨input', by simp [hmem], hcall⟩

theorem context_calls (h : call ∈ (context lib createTensor inputs json_str).calls) :
    ∃ dataset, datasetOf lib json_str = .ok dataset ∧
      ∃ input ∈ inputs, inputTensor dataset input = .ok call := by
  rw [context] at h
  cases hd : datasetOf lib json_str with
  | error e => simp [hd] at h
  | ok dataset =>
    simp only [hd] at h
    exact ⟨dataset, rfl, inputTensors_calls h⟩

end OnnxruntimeServer
