import OnnxruntimeServer.SessionManager
import OnnxruntimeServer.Context
import OnnxruntimeServer.TensorData

namespace OnnxruntimeServer
set_option autoImplicit true

/-- An `Ort::Session`: which one it is, and the inputs and outputs its model declares. -/
structure OrtSession where
  handle : Nat
  inputs : List ValueInfo
  outputs : List ValueInfo

/-- `Ort::Session::Run`: names and values of the inputs, and the names of the outputs asked for. -/
abbrev OrtRun := OrtSession → List Bytes → List (Option CreateTensor) → List Bytes →
  Except Bytes (List OutputTensor)

/-- `onnx::session`. Times are in seconds. -/
structure Session where
  key : SessionKey
  ort_session : OrtSession
  created_at : Int64
  last_executed_at : Int64
  execution_count : Nat
  inputCount : Nat
  inputNames : List Bytes
  inputs : List ValueInfo
  outputCount : Nat
  outputNames : List Bytes
  outputs : List ValueInfo
  option : Json

def Json.erase (j : Json) (key : Bytes) : Json :=
  match j with
  | .object members => .object (members.filter fun e => e.1 ≠ key)
  | j => j

/-- `get<int64_t>()`. A `double` out of range becomes the smallest integer. -/
def getInt64 (j : Json) : Except Exception Int := do
  let element ← getInteger true 64 false j
  .ok (match element with
    | .int i => i
    | _ => -2 ^ 63)

def ValueInfo.typeToString (info : ValueInfo) : Bytes :=
  info.element_type.typeName ++ ascii "[" ++
    (ascii ",").intercalate (info.shape.map fun dim => ascii (toString dim)) ++ ascii "]"

namespace Session

def sizeMismatch (option_key : Bytes) (override_shape : Json) (dumpFloat : Double → Bytes) :
    Exception :=
  match override_shape.dump dumpFloat with
  | .ok text => exception .runtimeError (option_key ++ ascii " override size mismatch: " ++ text)
  | .error e => e

def overrideShape (dumpFloat : Double → Bytes) (option : Json) (option_key : Bytes)
    (value : ValueInfo) : Except Exception ValueInfo :=
  match (option.member option_key).find value.name with
  | some (.array dims) =>
    if dims.length ≠ value.shape.length then
      .error (sizeMismatch option_key (.array dims) dumpFloat)
    else do
      let shape ← dims.mapM getInt64
      .ok { value with shape }
  | _ => .ok value

/-- `init`, at the end of either constructor of a session. -/
def init (dumpFloat : Double → Bytes) (key : SessionKey) (option : Json) (created_at : Int64)
    (ort_session : OrtSession) : Except Exception Session := do
  let inputs ← ort_session.inputs.mapM (overrideShape dumpFloat option (ascii "input_shape"))
  let option := option.erase (ascii "input_shape")
  let outputs ← ort_session.outputs.mapM (overrideShape dumpFloat option (ascii "output_shape"))
  .ok
    { key, ort_session, created_at
      last_executed_at := 0
      execution_count := 0
      inputCount := ort_session.inputs.length
      inputNames := ort_session.inputs.map ValueInfo.name
      inputs
      outputCount := ort_session.outputs.length
      outputNames := ort_session.outputs.map ValueInfo.name
      outputs
      option := option.erase (ascii "output_shape") }

def touch (now : Int64) (session : Session) : Session :=
  { session with last_executed_at := now, execution_count := session.execution_count + 1 }

def run (ort : OrtRun) (session : Session) (input_values : List (Option CreateTensor)) :
    Except Exception (List OutputTensor) :=
  if input_values.length ≠ session.inputCount then
    .error (exception .runtimeError
      (ascii "params size is not same as: " ++ ascii (toString session.inputCount)))
  else
    match ort session.ort_session session.inputNames input_values session.outputNames with
    | .ok tensors => .ok tensors
    | .error what => .error (exception .stdException what)

def typesJson (infos : List ValueInfo) : Json :=
  .object (infos.foldl (fun members info => Json.setMember info.name
    (.string info.typeToString) members) [])

def toJson (session : Session) : Json :=
  .object [
    (ascii "created_at", .integer session.created_at),
    (ascii "execution_count", .integer (.ofNat session.execution_count)),
    (ascii "inputs", typesJson session.inputs),
    (ascii "last_executed_at", .integer session.last_executed_at),
    (ascii "model", .string session.key.model_name),
    (ascii "option", session.option),
    (ascii "outputs", typesJson session.outputs),
    (ascii "version", .string session.key.model_version)]

def fresh (key : SessionKey) (handle : Nat) (inputs outputs : List ValueInfo) : Session where
  key := key
  ort_session := ⟨handle, inputs, outputs⟩
  created_at := 0
  last_executed_at := 0
  execution_count := 0
  inputCount := inputs.length
  inputNames := inputs.map ValueInfo.name
  inputs := inputs
  outputCount := outputs.length
  outputNames := outputs.map ValueInfo.name
  outputs := outputs
  option := .object []

def exampleKey : SessionKey := ⟨ascii "m", ascii "1", rfl, rfl⟩

variable {session : Session} {key : SessionKey} {option : Json} {created_at : Int64}
  {ort_session : OrtSession}

theorem overrideShape_ok (h : overrideShape dumpFloat option option_key value = .ok value') :
    value'.name = value.name ∧ value'.element_type = value.element_type ∧
      value'.shape.length = value.shape.length := by
  rw [overrideShape] at h
  split at h
  · split at h
    · cases h
    · rename_i dims _ hl
      obtain ⟨shape, hs, h⟩ := bind_eq_ok.1 h
      obtain rfl := Except.ok.inj h
      exact ⟨rfl, rfl, (mapM_forall₂ hs).length_eq.symm.trans (not_not.1 hl)⟩
  · obtain rfl := Except.ok.inj h
    exact ⟨rfl, rfl, rfl⟩

theorem map_name {infos infos' : List ValueInfo}
    (h : infos.mapM (overrideShape dumpFloat option option_key) = .ok infos') :
    infos'.map ValueInfo.name = infos.map ValueInfo.name := by
  have hov := mapM_forall₂ h
  clear h
  induction hov with
  | nil => rfl
  | cons hi _ ih => rw [List.map_cons, List.map_cons, ih, (overrideShape_ok hi).1]

/-- What `init` collects belongs together: a name for each input and for each output. -/
structure Initialized (session : Session) : Prop where
  inputNames : session.inputNames = session.inputs.map ValueInfo.name
  inputCount : session.inputCount = session.inputs.length
  outputNames : session.outputNames = session.outputs.map ValueInfo.name
  outputCount : session.outputCount = session.outputs.length

theorem init_ok (h : init dumpFloat key option created_at ort_session = .ok session) :
    session.Initialized ∧ session.key = key ∧ session.created_at = created_at ∧
      session.execution_count = 0 ∧ session.last_executed_at = 0 := by
  rw [init] at h
  obtain ⟨inputs, hi, h⟩ := bind_eq_ok.1 h
  obtain ⟨outputs, ho, h⟩ := bind_eq_ok.1 h
  obtain rfl := Except.ok.inj h
  refine ⟨⟨(map_name hi).symm, ?_, (map_name ho).symm, ?_⟩, rfl, rfl, rfl, rfl⟩
  · exact (mapM_forall₂ hi).length_eq
  · exact (mapM_forall₂ ho).length_eq

theorem initialized_fresh (key : SessionKey) (handle : Nat) (inputs outputs : List ValueInfo) :
    (fresh key handle inputs outputs).Initialized :=
  ⟨rfl, rfl, rfl, rfl⟩

theorem Initialized.touch (h : session.Initialized) (now : Int64) :
    (session.touch now).Initialized :=
  ⟨h.inputNames, h.inputCount, h.outputNames, h.outputCount⟩

end Session
end OnnxruntimeServer
