import OnnxruntimeServer.Context
import OnnxruntimeServer.NestedOptions

namespace OnnxruntimeServer
set_option autoImplicit true

def Json.integer? : Json → Option Int
  | .integer i => some i.toInt
  | .unsigned n => some n.toNat
  | _ => none

def toProviderString (dumpFloat : Double → Bytes) (v : Json) : Except Exception Bytes :=
  match v with
  | .boolean b => .ok (if b then ascii "1" else ascii "0")
  | .string s => .ok s
  | v =>
    -- `is_number_integer()` is asked first, so the branch for unsigned integers is never taken.
    match v.integer? with
    | some i => .ok (ascii (toString (wrap true 64 i)))
    | none => v.dump dumpFloat

/-- The loop of `infer_readback_value`: a minus or a digit first, and then only digits. -/
def isNumericText : Bytes → Bool
  | [] => false
  | c :: raw => (c == 0x2D || isDigit c) && raw.all isDigit

def inferReadbackValue (raw : Bytes) : Json :=
  if raw = ascii "true" then .boolean true
  else if raw = ascii "false" then .boolean false
  else if isNumericText raw then
    match stoll raw with
    | some i => .integer i
    | none => .string raw
  else .string raw

def findFrom (s : Bytes) (c : UInt8) (pos : Nat) : Option Nat :=
  ((s.drop pos).findIdx? (· == c)).map (pos + ·)

/-- `s.substr(pos, n)`, which throws where `pos` lies behind the end. -/
def substr (s : Bytes) (pos n : Nat) : Option Bytes :=
  if pos ≤ s.length then some ((s.drop pos).take n) else none

/-- The loop of `parse_options_string` from `pos` on. It has no result where it throws, or goes on
after as many rounds as it is given. -/
def parseOptionsFrom (s : Bytes) : Nat → Nat → Json → Option Json
  | 0, _, _ => none
  | fuel + 1, pos, out =>
    if pos < s.length then
      match findFrom s 0x3D pos with
      | none => some out
      | some eq => do
        let sc := (findFrom s 0x3B eq).getD s.length
        let k ← substr s pos (eq - pos)
        let v ← substr s (eq + 1) (sc - eq - 1)
        parseOptionsFrom s fuel (sc + 1) (if k ≠ [] then out.set k (inferReadbackValue v) else out)
    else some out

def parseOptionsString (s : Bytes) : Option Json :=
  parseOptionsFrom s (s.length + 1) 0 (.object [])

/-- What a call of ORT's C interface returns: nothing, or an error and perhaps its message. -/
abbrev OrtStatus := Option (Option Bytes)

/-- The CUDA provider of ORT, which holds the options that it has been given. -/
structure CudaApi where
  createCUDAProviderOptions : OrtStatus
  updateCUDAProviderOptions : List (Bytes × Bytes) → OrtStatus
  appendExecutionProvider : List (Bytes × Bytes) → OrtStatus
  getCUDAProviderOptionsAsString : List (Bytes × Bytes) → Option Bytes

def errorMessage (err : Option Bytes) : Bytes := err.getD (ascii "unknown error")

/-- The keys and values of the single update. -/
def cudaUpdates (dumpFloat : Double → Bytes) (cuda : Json) : Except Exception (List (Bytes × Bytes)) :=
  match cuda with
  | .object members => members.mapM fun e => do
    let value ← toProviderString dumpFloat e.2
    .ok (e.1, value)
  | cuda =>
    match cuda.integer? with
    | some i => .ok [(ascii "device_id", ascii (toString (wrap true 32 i)))]
    | none => .ok []

/-- The keys that are echoed. -/
def requestedKeys (cuda : Json) : List Bytes := ascii "device_id" :: cuda.members.map Prod.fst

/-- What ORT sees of an update: `c_str()` of each key and value. -/
def passedUpdates (updates : List (Bytes × Bytes)) : List (Bytes × Bytes) :=
  updates.map fun e => (cString e.1, cString e.2)

def updateAll (api : CudaApi) (updates : List (Bytes × Bytes)) : Except Exception Unit :=
  if updates = [] then .ok ()
  else match api.updateCUDAProviderOptions (passedUpdates updates) with
    | some err => .error (exception .runtimeError
        (ascii "Failed to update CUDA provider options: " ++ errorMessage err))
    | none => .ok ()

def cudaEcho (requested : List Bytes) (text : Option Bytes) : Except Exception Json :=
  match text with
  | none => .ok (.object [])
  | some text =>
    match parseOptionsString (cString text) with
    | some all => .ok (.object (all.members.filter fun e => requested.contains e.1))
    | none => .error (exception .stdException (ascii "basic_string::substr"))

def appendCudaSessionOptions (api : CudaApi) (dumpFloat : Double → Bytes) (option : Json) :
    Except Exception Json := do
  let cuda := option.member (ascii "cuda")
  if let some err := api.createCUDAProviderOptions then
    .error (exception .stdException (errorMessage err))
  let updates ← cudaUpdates dumpFloat cuda
  updateAll api updates
  if let some err := api.appendExecutionProvider (passedUpdates updates) then
    .error (exception .runtimeError (ascii "Failed to append CUDA EP: " ++ errorMessage err))
  cudaEcho (requestedKeys cuda) (api.getCUDAProviderOptionsAsString (passedUpdates updates))

end OnnxruntimeServer
