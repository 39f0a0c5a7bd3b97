import OnnxruntimeServer.Json
import OnnxruntimeServer.Lib.OrderedMap

namespace OnnxruntimeServer
set_option autoImplicit true

/-- `std::isalnum` in the C locale. -/
def isAlnum (c : UInt8) : Bool :=
  (0x30 ≤ c && c ≤ 0x39) || (0x41 ≤ c && c ≤ 0x5A) || (0x61 ≤ c && c ≤ 0x7A)

def isValidModelName (model_key : Bytes) : Bool :=
  !model_key.isEmpty && model_key.all fun c => isAlnum c || c == 0x5F || c == 0x2D

def isValidModelVersion (model_version : Bytes) : Bool :=
  !model_version.isEmpty &&
    model_version.all fun c => isAlnum c || c == 0x5F || c == 0x2D || c == 0x2F

/-- `session_key`, whose constructor checks both parts. -/
structure SessionKey where
  model_name : Bytes
  model_version : Bytes
  valid_name : isValidModelName model_name = true
  valid_version : isValidModelVersion model_version = true
  deriving DecidableEq

def sessionKey (model_name model_version : Bytes) : Except Exception SessionKey :=
  if hn : isValidModelName model_name = true then
    if hv : isValidModelVersion model_version = true then
      .ok ⟨model_name, model_version, hn, hv⟩
    else .error (exception .runtimeError (ascii "Invalid model version: " ++ model_version ++
      ascii " Must be \"a-z, A-Z, 0-9, '-', '_', '/'.\""))
  else .error (exception .runtimeError (ascii "Invalid model name: " ++ model_name ++
    ascii " Must be \"a-z, A-Z, 0-9, '-', '_'.\""))

namespace SessionKey

/-- `operator<`: the names decide, and the versions where the names are equal. -/
def lt (key other : SessionKey) : Bool :=
  if key.model_name < other.model_name then true
  else if other.model_name < key.model_name then false
  else key.model_version < other.model_version

/-- The bytes of a key as numbers, which are ordered as the bytes are. -/
def code (key : SessionKey) : List Nat ×ₗ List Nat :=
  toLex (key.model_name.map UInt8.toNat, key.model_version.map UInt8.toNat)

theorem code_injective : Function.Injective code := by
  intro key other h
  have h := toLex.injective h
  have hinj : Function.Injective UInt8.toNat := fun _ _ => UInt8.toNat_inj.1
  have hn := List.map_injective_iff.2 hinj (Prod.mk.inj h).1
  have hv := List.map_injective_iff.2 hinj (Prod.mk.inj h).2
  cases key
  cases other
  cases hn
  cases hv
  rfl

instance : LinearOrder SessionKey := LinearOrder.lift' code code_injective

theorem map_toNat_lt (xs ys : Bytes) : xs.map UInt8.toNat < ys.map UInt8.toNat ↔ xs < ys := by
  induction xs generalizing ys with
  | nil => cases ys <;> simp
  | cons x xs ih =>
    cases ys with
    | nil => simp
    | cons y ys => simp [List.cons_lt_cons_iff, ih, UInt8.lt_iff_toNat_lt, UInt8.toNat_inj]

/-- The order of the map of sessions is the one of `operator<`. -/
theorem lt_iff (key other : SessionKey) : key < other ↔ key.lt other = true := by
  have hlex : key < other ↔
      key.model_name.map UInt8.toNat < other.model_name.map UInt8.toNat ∨
        key.model_name.map UInt8.toNat = other.model_name.map UInt8.toNat ∧
          key.model_version.map UInt8.toNat < other.model_version.map UInt8.toNat :=
    Prod.Lex.lt_iff
  rw [hlex, lt]
  rcases lt_trichotomy (key.model_name.map UInt8.toNat) (other.model_name.map UInt8.toNat) with
    h | h | h
  · rw [if_pos ((map_toNat_lt _ _).1 h)]
    simp [h]
  · have hn : ¬ key.model_name < other.model_name := fun hlt => h.not_lt ((map_toNat_lt _ _).2 hlt)
    have hn' : ¬ other.model_name < key.model_name :=
      fun hlt => h.symm.not_lt ((map_toNat_lt _ _).2 hlt)
    simp only [if_neg hn, if_neg hn', h, lt_irrefl, false_or, true_and, map_toNat_lt,
      decide_eq_true_eq]
  · rw [if_neg fun hlt => lt_asymm h ((map_toNat_lt _ _).2 hlt), if_pos ((map_toNat_lt _ _).1 h)]
    simp [h.ne', lt_asymm h]

end SessionKey

/-- Where the constructor of a session gets the model from. -/
inductive ModelSource where
  | data (model_data : Bytes)
  | path (path : Bytes)
  | getter

/-- The branches of `create_session` that build the session. -/
def modelSource (option : Json) (model_data : Option Bytes) : ModelSource :=
  match model_data.filter (!·.isEmpty), option.find (ascii "path") with
  | some data, _ => .data data
  | none, some (.string path) => .path path
  | none, _ => .getter

inductive Call where
  | create (model_name model_version : Bytes) (option : Json) (model_data : Option Bytes)
  | get (model_name model_version : Bytes)
  | remove (model_name model_version : Bytes)

def Call.key : Call → Except Exception SessionKey
  | .create name version _ _ | .get name version | .remove name version => sessionKey name version

/-- The result of a call: a session, found or new, or none, or an exception. -/
inductive Ret (S : Type) where
  | created (session : S)
  | found (session : Option S)
  | removed
  | failed (e : Exception)

def conflictError : Exception := exception .conflictError (ascii "session already exists")

def notFoundError : Exception := exception .notFoundError (ascii "session not found")

end OnnxruntimeServer
