import OnnxruntimeServer.Json

namespace OnnxruntimeServer
set_option autoImplicit true

/-- `ONNXTensorElementDataType`. -/
inductive ElementType where
  | undefined | float | uint8 | int8 | uint16 | int16 | int32 | int64 | string | bool | float16
  | double | uint32 | uint64 | complex64 | complex128 | bfloat16 | float8e4m3fn | float8e4m3fnuz
  | float8e5m2 | float8e5m2fnuz | uint4 | int4 | float4e2m1 | uint2 | int2 | float8e8m0
  deriving DecidableEq

def ElementType.typeName : ElementType → Bytes
  | .undefined => ascii "undefined"
  | .float => ascii "float32"
  | .uint4 => ascii "uint4"
  | .int4 => ascii "int4"
  | .uint2 => ascii "uint2"
  | .int2 => ascii "int2"
  | .uint8 => ascii "uint8"
  | .int8 => ascii "int8"
  | .uint16 => ascii "uint16"
  | .int16 => ascii "int16"
  | .int32 => ascii "int32"
  | .int64 => ascii "int64"
  | .string => ascii "string"
  | .bool => ascii "boolean"
  | .float8e5m2 => ascii "float8e5m2"
  | .float8e5m2fnuz => ascii "float8e5m2fnuz"
  | .float8e4m3fn => ascii "float8e4m3fn"
  | .float8e4m3fnuz => ascii "float8e4m3fnuz"
  | .float8e8m0 => ascii "float8e8m0"
  | .float4e2m1 => ascii "float4e2m1"
  | .float16 => ascii "float16"
  | .double => ascii "float64"
  | .uint32 => ascii "uint32"
  | .uint64 => ascii "uint64"
  | .complex64 => ascii "complex64"
  | .complex128 => ascii "complex128"
  | .bfloat16 => ascii "bfloat16"

/-- An input or an output of a model. A dimension that the model leaves open is `-1`. -/
structure ValueInfo where
  name : Bytes
  element_type : ElementType
  shape : List Int
  input_shape : List Int
  deriving DecidableEq

/-- What C++ leaves undefined: an index outside a vector, or a loop that makes no progress. -/
inductive Fault where
  | outOfBounds
  | diverges
  deriving DecidableEq

/-- The conversion of a signed number to `size_t`. -/
def toSize (z : Int) : Nat := (if z < 0 then z + 2 ^ 64 else z).toNat

/-- The inner loop of `values_fit_shape`: `count` values from position `p` on. -/
def fitRow (values : List Json) (p : Nat) : Nat → Except Fault (List Json)
  | 0 => .ok []
  | count + 1 =>
    match values[p]? with
    | none => .error .outOfBounds
    | some value => do
      let row ← fitRow values (p + 1) count
      .ok (value :: row)

/-- The outer loop from position `i` on. A loop that advances ends after `values.size()` rounds,
so the loop that uses up its fuel is the one that steps by 0. -/
def fitRows (values : List Json) (dim : Nat) : Nat → Nat → Except Fault (List Json)
  | 0, i => if values.length ≤ i then .ok [] else .error .diverges
  | fuel + 1, i =>
    if values.length ≤ i then .ok []
    else do
      let row ← fitRow values i dim
      let rest ← fitRows values dim fuel (i + dim)
      .ok (.array row :: rest)

/-- `values_fit_shape`. At depth 0 the decrement wraps around, and no shape has that index. -/
def valuesFitShape (values : List Json) (shape : List Int) : Nat → Except Fault (List Json)
  | 0 => .error .outOfBounds
  | 1 => .ok values
  | depth + 2 =>
    match shape[depth + 1]? with
    | none => .error .outOfBounds
    | some dim => do
      let result ← fitRows values (toSize dim) values.length 0
      valuesFitShape result shape (depth + 1)

def Json.children : Json → Option (List Json)
  | .array items => some items
  | _ => none

theorem Json.eq_array_of_children {j : Json} (h : j.children = some items) : j = .array items := by
  cases j with
  | array xs => rw [Option.some.inj h]
  | _ => cases h

theorem toSize_natCast (n : Nat) : toSize n = n := by
  rw [toSize, if_neg (by omega), Int.toNat_natCast]

theorem fitRow_of_drop (h : values.drop p = row ++ rest) :
    fitRow values p row.length = .ok row := by
  induction row generalizing p with
  | nil => rfl
  | cons x row ih =>
    have hx : values[p]? = some x := by
      rw [← List.head?_drop, h]
      rfl
    have ht : values.drop (p + 1) = row ++ rest := by
      rw [← List.tail_drop, h]
      rfl
    simp only [List.length_cons, fitRow, hx, ih ht]
    rfl

theorem fitRows_of_drop {rows : List (List Json)} (hd : 0 < dim)
    (hrows : ∀ row ∈ rows, row.length = dim)
    (h : values.drop i = rows.flatten) (hf : rows.length ≤ fuel) :
    fitRows values dim fuel i = .ok (rows.map .array) := by
  induction rows generalizing fuel i with
  | nil =>
    have hi := List.drop_eq_nil_iff.1 h
    cases fuel <;> rw [fitRows, if_pos hi] <;> rfl
  | cons row rows ih =>
    have hl : row.length = dim := hrows row List.mem_cons_self
    have hi : i < values.length := by
      by_contra hn
      rw [List.drop_eq_nil_of_le (by omega), List.flatten_cons] at h
      have := List.append_eq_nil_iff.1 h.symm
      rw [this.1] at hl
      exact hd.ne hl
    obtain ⟨fuel, rfl⟩ : ∃ k, fuel = k + 1 := ⟨fuel - 1, by simp at hf; omega⟩
    have hnext : values.drop (i + dim) = rows.flatten := by
      rw [← List.drop_drop, h, List.flatten_cons, ← hl, List.drop_left]
    rw [fitRows, if_neg (by omega), ← hl, fitRow_of_drop h, hl,
      ih (fun r hr => hrows r (List.mem_cons_of_mem _ hr)) hnext (by simpa using hf)]
    rfl

end OnnxruntimeServer
