import OnnxruntimeServer.TensorData
import OnnxruntimeServer.Lib.Packing

namespace OnnxruntimeServer
set_option autoImplicit true
open Packing

/-- The element types that ONNX Runtime stores packed. -/
inductive PackedType where
  | uint4
  | int4
  | float4e2m1
  | uint2
  | int2
  deriving DecidableEq

/-- The fields of a `float4e2m1`, whose exponent has the bias 1. -/
structure E2M1 where
  neg : Bool
  exponent : Fin 4
  mantissa : Fin 2
  deriving DecidableEq

def E2M1.code (x : E2M1) : Nat := (if x.neg then 8 else 0) + 2 * x.exponent + x.mantissa

/-- The number in halves: a subnormal one has no implicit bit. -/
def E2M1.halves (x : E2M1) : Nat :=
  if x.exponent = 0 then x.mantissa else (2 + x.mantissa) * 2 ^ (x.exponent.val - 1)

namespace PackedType

def element : PackedType → ElementType
  | .uint4 => .uint4
  | .int4 => .int4
  | .float4e2m1 => .float4e2m1
  | .uint2 => .uint2
  | .int2 => .int2

def bits : PackedType → Nat
  | .uint4 | .int4 | .float4e2m1 => 4
  | .uint2 | .int2 => 2

def Value : PackedType → Type
  | .uint4 => Fin 16
  | .int4 => { x : Int // -8 ≤ x ∧ x < 8 }
  | .float4e2m1 => E2M1
  | .uint2 => Fin 4
  | .int2 => { x : Int // -2 ≤ x ∧ x < 2 }

/-- The bits that stand for a value: two's complement for the signed types. -/
def code : (type : PackedType) → type.Value → Nat
  | .uint4, (x : Fin 16) => x
  | .int4, (x : { x : Int // -8 ≤ x ∧ x < 8 }) => (x.1 % 2 ^ 4).toNat
  | .float4e2m1, (x : E2M1) => x.code
  | .uint2, (x : Fin 4) => x
  | .int2, (x : { x : Int // -2 ≤ x ∧ x < 2 }) => (x.1 % 2 ^ 2).toNat

def json : (type : PackedType) → type.Value → Json
  | .uint4, (x : Fin 16) => .unsigned x.val.toUInt64
  | .int4, (x : { x : Int // -8 ≤ x ∧ x < 8 }) => .integer (.ofInt x)
  | .float4e2m1, (x : E2M1) => .float (ldexp x.neg x.halves (-1))
  | .uint2, (x : Fin 4) => .unsigned x.val.toUInt64
  | .int2, (x : { x : Int // -2 ≤ x ∧ x < 2 }) => .integer (.ofInt x)

/-- What the branch of `get_tensor_data` puts for the bits it has unpacked. -/
def decode : PackedType → Nat → Json
  | .uint4, n => .unsigned n.toUInt64
  | .int4, n => .integer (.ofInt (signExtend 4 n))
  | .float4e2m1, n => .float (decodeFloat4 n)
  | .uint2, n => .unsigned n.toUInt64
  | .int2, n => .integer (.ofInt (signExtend 2 n))

def unpack : PackedType → (Nat → UInt8) → Nat → Nat
  | .uint4 | .int4 | .float4e2m1 => unpackNibble
  | .uint2 | .int2 => unpack2bit

end PackedType

/-- `unpack_nibble` on a buffer behind whose end nothing can be read. -/
def unpackNibbleIn (data : Bytes) (i : Nat) : Option Nat := do
  let byte ← data[i / 2]?
  some (if i % 2 = 0 then byte.toNat % 16 else byte.toNat / 16)

/-- `unpack_2bit` on a buffer behind whose end nothing can be read. -/
def unpack2bitIn (data : Bytes) (i : Nat) : Option Nat := do
  let byte ← data[i / 4]?
  some (byte.toNat / 2 ^ (i % 4 * 2) % 4)

namespace PackedType

def unpackIn : PackedType → Bytes → Nat → Option Nat
  | .uint4 | .int4 | .float4e2m1 => unpackNibbleIn
  | .uint2 | .int2 => unpack2bitIn

/-- The loop of `get_tensor_data` over a buffer; no value for a read outside of it. -/
def readBuffer (type : PackedType) (data : Bytes) (size : Nat) : Option (List Json) :=
  (List.range size).mapM fun i => (type.unpackIn data i).map type.decode

theorem put_element (type : PackedType) :
    type.element.put? = some fun tensor i => type.decode (type.unpack tensor.byte i) := by
  cases type <;> rfl

theorem bits_dvd (type : PackedType) : type.bits ∣ 8 := by
  cases type <;> decide

theorem code_lt (type : PackedType) (x : type.Value) : type.code x < 2 ^ type.bits := by
  cases type with
  | uint4 => exact Fin.isLt x
  | uint2 => exact Fin.isLt x
  | float4e2m1 =>
    obtain ⟨neg, exponent, mantissa⟩ := x
    simp only [code, E2M1.code, bits]
    split <;> omega
  | int4 =>
    simp only [code, bits]
    omega
  | int2 =>
    simp only [code, bits]
    omega

theorem signExtend_code (w : Nat) (hl : -2 ^ w ≤ x) (hu : x < 2 ^ w) :
    signExtend (w + 1) (x % 2 ^ (w + 1)).toNat = x := by
  have hpow : (2 : Int) ^ (w + 1) = 2 * 2 ^ w := by rw [pow_succ, mul_comm]
  have hpos : (0 : Int) < 2 ^ w := by positivity
  have hcast : ((2 ^ w : Nat) : Int) = 2 ^ w := by norm_cast
  rw [signExtend, Nat.add_sub_cancel, hpow]
  by_cases hx : 0 ≤ x
  · rw [Int.emod_eq_of_lt hx (by omega), if_neg (by omega)]
    omega
  · have hmod : x % (2 * 2 ^ w) = x + 2 * 2 ^ w := by
      rw [← Int.add_mul_emod_self_left x (2 * 2 ^ w) 1, mul_one]
      exact Int.emod_eq_of_lt (by omega) (by omega)
    rw [hmod, if_pos (by omega)]
    omega

theorem decodeFloat4_code (x : E2M1) : decodeFloat4 x.code = ldexp x.neg x.halves (-1) := by
  obtain ⟨neg, exponent, mantissa⟩ := x
  cases neg <;> fin_cases exponent <;> fin_cases mantissa <;> rfl

theorem decode_code (type : PackedType) (x : type.Value) : type.decode (type.code x) = type.json x := by
  cases type with
  | uint4 => rfl
  | uint2 => rfl
  | float4e2m1 => exact congrArg Json.float (decodeFloat4_code x)
  | int4 =>
    simp only [decode, code, json]
    rw [signExtend_code 3 (by have := x.2; omega) (by have := x.2; omega)]
  | int2 =>
    simp only [decode, code, json]
    rw [signExtend_code 1 (by have := x.2; omega) (by have := x.2; omega)]

theorem unpack_eq_field (type : PackedType) (data : Nat → UInt8) (i : Nat) :
    type.unpack data i = field type.bits data i := by
  have hn : unpackNibble data i = field 4 data i := by
    have hdiv : i * 4 / 8 = i / 2 := by omega
    have hlt := (data (i / 2)).toNat_lt
    rw [unpackNibble, field, hdiv]
    split
    · rw [show i * 4 % 8 = 0 by omega, pow_zero, Nat.div_one]
      rfl
    · rw [show i * 4 % 8 = 4 by omega]
      omega
  have ht : unpack2bit data i = field 2 data i := by
    rw [unpack2bit, field, show i * 2 / 8 = i / 4 by omega, show i * 2 % 8 = i % 4 * 2 by omega]
    rfl
  cases type <;> first | exact hn | exact ht

/-- Element `i` is read from the one byte that its field lies in. -/
theorem unpackIn_eq (type : PackedType) (hi : i * type.bits / 8 < data.length) :
    type.unpackIn data i = some (type.unpack (data.getD · 0) i) := by
  have hn (h : i * 4 / 8 < data.length) :
      unpackNibbleIn data i = some (unpackNibble (data.getD · 0) i) := by
    have h : i / 2 < data.length := by omega
    simp [unpackNibbleIn, unpackNibble, h]
  have ht (h : i * 2 / 8 < data.length) :
      unpack2bitIn data i = some (unpack2bit (data.getD · 0) i) := by
    have h : i / 4 < data.length := by omega
    simp [unpack2bitIn, unpack2bit, h]
  cases type <;> first | exact hn hi | exact ht hi

theorem mapM_some {xs : List α} {f : α → Option β} {g : α → β} (h : ∀ x ∈ xs, f x = some (g x)) :
    xs.mapM f = some (xs.map g) := by
  induction xs with
  | nil => rfl
  | cons x xs ih =>
    rw [List.mapM_cons, h x List.mem_cons_self, ih fun y hy => h y (List.mem_cons_of_mem x hy)]
    rfl

variable {type : PackedType} {values : List type.Value} {bytes : Bytes}

theorem unpack_packed (h : Packs type.bits (values.map type.code) bytes) {data : Nat → UInt8}
    (hd : ∀ j < bytes.length, data j = bytes.getD j 0) (hi : i < values.length) :
    type.decode (type.unpack data i) = type.json values[i] := by
  have hlen : i < (values.map type.code).length := by rwa [List.length_map]
  have hcode : (values.map type.code)[i] = type.code values[i] := List.getElem_map _
  have hlt : (values.map type.code)[i] < 2 ^ type.bits := hcode ▸ type.code_lt _
  rw [unpack_eq_field, h.field_eq type.bits_dvd hlen hlt hd, hcode, decode_code]

theorem map_unpack (h : Packs type.bits (values.map type.code) bytes) {data : Nat → UInt8}
    (hd : ∀ j < bytes.length, data j = bytes.getD j 0) :
    (List.range values.length).map (fun i => type.decode (type.unpack data i)) =
      values.map type.json := by
  apply List.ext_getElem (by simp)
  intro i _ hi
  rw [List.getElem_map, List.getElem_map, List.getElem_range]
  rw [List.length_map] at hi
  exact unpack_packed h hd hi

/-- Decoding a packed output gives back the values that were packed, whatever the unused bits are
and whatever lies behind the last byte; and a buffer that ends there is not left. -/
theorem packed_output_exact (h : Packs type.bits (values.map type.code) bytes) :
    bytes.length = (values.length * type.bits + 7) / 8 ∧
      type.readBuffer bytes values.length = some (values.map type.json) ∧
      ∀ (info : ValueInfo) (tensor : OutputTensor), info.element_type = type.element →
        tensor.getElementCount = values.length →
        (∀ j < bytes.length, tensor.byte j = bytes.getD j 0) →
        info.values tensor = values.map type.json := by
  have hbytes : bytes.length = (values.length * type.bits + 7) / 8 := by
    rw [h.length, List.length_map]
  refine ⟨hbytes, ?_, ?_⟩
  · have hread : ∀ i ∈ List.range values.length, (type.unpackIn bytes i).map type.decode =
        some (type.decode (type.unpack (bytes.getD · 0) i)) := by
      intro i hi
      have hle := Nat.mul_le_mul_right type.bits (List.mem_range.1 hi)
      have hpos : 0 < type.bits := by cases type <;> decide
      rw [Nat.succ_mul] at hle
      rw [unpackIn_eq type (by omega), Option.map_some]
    rw [readBuffer, mapM_some hread, map_unpack h fun _ _ => rfl]
  · intro info tensor hinfo hcount hd
    rw [ValueInfo.values, hinfo, put_element]
    simp only [hcount]
    exact map_unpack h hd

def exampleInt4 : List (PackedType.int4).Value := [⟨-1, by decide⟩, ⟨7, by decide⟩, ⟨-8, by decide⟩]

theorem packed_output_exact_int4 :
    PackedType.int4.readBuffer [0x7F, 0xF8] 3 =
      some [.integer (-1), .integer 7, .integer (-8)] := by
  have hp : Packs 4 (exampleInt4.map PackedType.int4.code) [0x7F, 0xF8] := by
    have h4 : 0 < 4 := by decide
    exact packs_pack h4 (exampleInt4.map PackedType.int4.code) fun _ => true
  exact (@packed_output_exact .int4 exampleInt4 _ hp).2.1

end PackedType
end OnnxruntimeServer
