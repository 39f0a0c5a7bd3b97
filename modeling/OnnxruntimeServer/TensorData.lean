import OnnxruntimeServer.ContextShape

namespace OnnxruntimeServer
set_option autoImplicit true
open Nested

/-- A tensor that ONNX Runtime returns: its dimensions, as many elements as their product, and what
each of the typed accessors reads at a position. -/
structure OutputTensor where
  dims : List Nat
  signed : Nat → Int64
  unsigned : Nat → UInt64
  byte : Nat → UInt8
  real : Nat → Double
  boolean : Nat → Bool
  string : Nat → Bytes

namespace OutputTensor

def getElementCount (tensor : OutputTensor) : Nat := tensor.dims.prod

def getShape (tensor : OutputTensor) : List Int := tensor.dims.map Nat.cast

end OutputTensor

/-- Two elements of four bits stand in a byte, the first of them in its low half. -/
def unpackNibble (data : Nat → UInt8) (i : Nat) : Nat :=
  if i % 2 = 0 then (data (i / 2)).toNat % 16 else (data (i / 2)).toNat / 16

def unpack2bit (data : Nat → UInt8) (i : Nat) : Nat :=
  (data (i / 4)).toNat / 2 ^ (i % 4 * 2) % 4

def signExtend (bits n : Nat) : Int := if 2 ^ (bits - 1) ≤ n then (n : Int) - 2 ^ bits else n

def ldexp (neg : Bool) (mant : Nat) (exp : Int) : Double := .finite neg (Fin.ofNat _ mant) exp

def decodeFloat8 (exp_bits mant_bits : Nat) (bias : Int) (has_inf fnuz : Bool) (byte : UInt8) :
    Double :=
  let exp := byte.toNat / 2 ^ mant_bits % 2 ^ exp_bits
  let mant := byte.toNat % 2 ^ mant_bits
  let neg : Bool := 0x80 ≤ byte.toNat
  let number :=
    if exp = 0 then ldexp neg mant (1 - bias - mant_bits)
    else ldexp neg (2 ^ mant_bits + mant) (exp - bias - mant_bits)
  if fnuz then if byte = 0x80 then .nan else number
  else if exp = 2 ^ exp_bits - 1 then
    if has_inf then if mant = 0 then .infinite neg else .nan
    else if mant = 2 ^ mant_bits - 1 then .nan
    else number
  else number

/-- `float4e2m1`: the magnitudes in halves, and bit 3 is the sign. -/
def decodeFloat4 (n : Nat) : Double :=
  ldexp (8 ≤ n) ([0, 1, 2, 3, 4, 6, 8, 12].getD (n % 8) 0) (-1)

def decodeE8M0 (byte : UInt8) : Double :=
  if byte = 0xFF then .nan else ldexp false 1 (byte.toNat - 127)

/-- Interleaved real and imaginary parts. -/
def complexJson (data : Nat → Double) (i : Nat) : Json :=
  .object [(ascii "imag", .float (data (2 * i + 1))), (ascii "real", .float (data (2 * i)))]

/-- The cases of `get_tensor_data`: how an element of each type is put into JSON. -/
def ElementType.put? : ElementType → Option (OutputTensor → Nat → Json)
  | .undefined => none
  | .float | .double | .float16 | .bfloat16 => some fun tensor i => .float (tensor.real i)
  | .int8 | .int16 | .int32 | .int64 => some fun tensor i => .integer (tensor.signed i)
  | .uint8 | .uint16 | .uint32 | .uint64 => some fun tensor i => .unsigned (tensor.unsigned i)
  | .uint4 => some fun tensor i => .unsigned (unpackNibble tensor.byte i).toUInt64
  | .int4 => some fun tensor i => .integer (.ofInt (signExtend 4 (unpackNibble tensor.byte i)))
  | .uint2 => some fun tensor i => .unsigned (unpack2bit tensor.byte i).toUInt64
  | .int2 => some fun tensor i => .integer (.ofInt (signExtend 2 (unpack2bit tensor.byte i)))
  | .float4e2m1 => some fun tensor i => .float (decodeFloat4 (unpackNibble tensor.byte i))
  | .string => some fun tensor i => .string (tensor.string i)
  | .bool => some fun tensor i => .boolean (tensor.boolean i)
  | .float8e5m2 => some fun tensor i => .float (decodeFloat8 5 2 15 true false (tensor.byte i))
  | .float8e5m2fnuz =>
    some fun tensor i => .float (decodeFloat8 5 2 16 false true (tensor.byte i))
  | .float8e4m3fn => some fun tensor i => .float (decodeFloat8 4 3 7 false false (tensor.byte i))
  | .float8e4m3fnuz => some fun tensor i => .float (decodeFloat8 4 3 8 false true (tensor.byte i))
  | .float8e8m0 => some fun tensor i => .float (decodeE8M0 (tensor.byte i))
  | .complex64 | .complex128 => some fun tensor i => complexJson tensor.real i

namespace ValueInfo

def values (info : ValueInfo) (tensor : OutputTensor) : List Json :=
  match info.element_type.put? with
  | none => []
  | some put => (List.range tensor.getElementCount).map (put tensor)

def getTensorData (info : ValueInfo) (tensor : OutputTensor) : Except Fault (List Json) :=
  valuesFitShape (info.values tensor) tensor.getShape tensor.getShape.length

end ValueInfo

/-- An array that is nested as the dimensions say, with the values as its leaves; without a
dimension, the values themselves. -/
def Shaped (values : List Json) : List Nat → List Json → Prop
  | [], items => items = values
  | d :: dims, items => (Json.array items).Rect (d :: dims) ∧
      (Json.array items).leavesAt (d :: dims).length = values

theorem put_not_array {type : ElementType} (h : type.put? = some put) (tensor : OutputTensor)
    (i : Nat) : (put tensor i).children = none := by
  cases type <;> cases h <;> rfl

theorem put_eq_none {type : ElementType} : type.put? = none ↔ type = .undefined := by
  cases type <;> simp [ElementType.put?]

theorem fitRows_nil (dim fuel i : Nat) : fitRows [] dim fuel i = .ok [] := by
  cases fuel <;> simp [fitRows]

theorem valuesFitShape_nil {shape : List Int} (hd : 1 ≤ depth) (hs : depth ≤ shape.length) :
    valuesFitShape [] shape depth = .ok [] := by
  obtain ⟨depth, rfl⟩ : ∃ k, depth = k + 1 := ⟨depth - 1, by omega⟩
  induction depth with
  | zero => rfl
  | succ depth ih =>
    have hdim : shape[depth + 1]? = some shape[depth + 1] := List.getElem?_eq_getElem (by omega)
    have hup := ih (by omega) (by omega)
    simp only [valuesFitShape, hdim, fitRows_nil]
    exact hup

variable {info : ValueInfo} {tensor : OutputTensor}

theorem values_not_array (hv : v ∈ info.values tensor) : v.children = none := by
  rw [ValueInfo.values] at hv
  cases hp : info.element_type.put? with
  | none => simp [hp] at hv
  | some put =>
    simp only [hp] at hv
    obtain ⟨i, _, rfl⟩ := List.mem_map.1 hv
    exact put_not_array hp tensor i

theorem length_values (h : info.element_type ≠ .undefined) :
    (info.values tensor).length = tensor.dims.prod := by
  rw [ValueInfo.values]
  cases hp : info.element_type.put? with
  | none => exact absurd (put_eq_none.1 hp) h
  | some put => simp [OutputTensor.getElementCount]

theorem values_eq_nil (h : info.element_type = .undefined ∨ 0 ∈ tensor.dims) :
    info.values tensor = [] := by
  rw [ValueInfo.values]
  cases hp : info.element_type.put? with
  | none => rfl
  | some put =>
    rcases h with h | h
    · rw [put_eq_none.2 h] at hp
      cases hp
    · simp [OutputTensor.getElementCount, List.prod_eq_zero h]

theorem valuesFitShape_of_pos {values : List Json} {dims : List Nat} (hr : dims ≠ [])
    (hd : 0 ∉ dims) (hv : ∀ v ∈ values, v.children = none) (hl : values.length = dims.prod) :
    ∃ items, valuesFitShape values (dims.map Nat.cast) dims.length = .ok items ∧
      Shaped values dims items := by
  have hnode : ∀ xs, (Json.array xs).children = some xs := fun _ => rfl
  obtain ⟨j, hrect, hleaves⟩ := exists_rect hnode hv hl
  have hpos : ∀ d ∈ dims, 1 ≤ d := by
    intro d hm
    apply Nat.pos_of_ne_zero
    rintro rfl
    exact hd hm
  obtain ⟨items, rfl, hfit⟩ := valuesFitShape_of_rect hrect hr hpos
  rw [flatJsonValues_of_rect hrect, List.nil_append, Json.leavesAt, hleaves] at hfit
  refine ⟨items, hfit, ?_⟩
  obtain ⟨d, ds, rfl⟩ := List.exists_cons_of_ne_nil hr
  exact ⟨hrect, hleaves⟩

/-- No row is built where a dimension is 0, so the empty array is right for a leading 0 only. -/
theorem shaped_nil_iff : Shaped [] (d :: dims) [] ↔ d = 0 := by
  constructor
  · rintro ⟨⟨items, hj, hl, _⟩, _⟩
    cases hj
    exact hl.symm
  · rintro rfl
    refine ⟨⟨[], rfl, rfl, by simp⟩, ?_⟩
    rw [Json.leavesAt, List.length_cons, descend_children rfl, descend_eq_flatMap,
      List.flatMap_nil]

/-- Only a tensor without dimensions makes `values_fit_shape` leave the shape's bounds. -/
theorem getTensorData_ok_iff :
    (∃ items, info.getTensorData tensor = .ok items) ↔ tensor.dims ≠ [] := by
  constructor
  · rintro ⟨items, h⟩ hd
    rw [ValueInfo.getTensorData, OutputTensor.getShape, hd] at h
    cases h
  · intro hr
    have hpos := List.length_pos_iff.2 hr
    rw [ValueInfo.getTensorData, OutputTensor.getShape, List.length_map]
    by_cases h : info.element_type = .undefined ∨ 0 ∈ tensor.dims
    · rw [values_eq_nil h, valuesFitShape_nil hpos (by simp)]
      exact ⟨[], rfl⟩
    · obtain ⟨ht, hz⟩ := not_or.1 h
      obtain ⟨items, hfit, _⟩ := valuesFitShape_of_pos hr hz
        (fun v hv => values_not_array hv) (length_values ht)
      exact ⟨items, hfit⟩

/-- `get_tensor_data` returns the nested array exactly when there is a dimension, and either the
first of them is 0 or none is. -/
theorem getTensorData_shaped_iff :
    (∃ items, info.getTensorData tensor = .ok items ∧
      Shaped (info.values tensor) tensor.dims items) ↔
      ∃ d dims, tensor.dims = d :: dims ∧
        (d = 0 ∨ 0 ∉ dims ∧ info.element_type ≠ .undefined) := by
  constructor
  · rintro ⟨items, h, hs⟩
    obtain ⟨d, dims, hd⟩ := List.exists_cons_of_ne_nil (getTensorData_ok_iff.1 ⟨items, h⟩)
    refine ⟨d, dims, hd, ?_⟩
    by_cases hn : info.element_type = .undefined ∨ 0 ∈ tensor.dims
    · rw [ValueInfo.getTensorData, OutputTensor.getShape, List.length_map, values_eq_nil hn,
        valuesFitShape_nil (by simp [hd]) (by simp)] at h
      obtain rfl := Except.ok.inj h
      rw [values_eq_nil hn, hd] at hs
      exact .inl (shaped_nil_iff.1 hs)
    · obtain ⟨ht, hz⟩ := not_or.1 hn
      rw [hd, List.mem_cons, not_or] at hz
      exact .inr ⟨hz.2, ht⟩
  · rintro ⟨d, dims, hd, h⟩
    rw [ValueInfo.getTensorData, OutputTensor.getShape, List.length_map]
    by_cases hn : info.element_type = .undefined ∨ 0 ∈ tensor.dims
    · refine ⟨[], ?_, ?_⟩
      · rw [values_eq_nil hn, valuesFitShape_nil (by simp [hd]) (by simp)]
      · rw [values_eq_nil hn, hd]
        apply shaped_nil_iff.2
        rcases h with h | ⟨hz, ht⟩
        · exact h
        · rcases hn with hn | hn
          · exact absurd hn ht
          · rw [hd, List.mem_cons] at hn
            exact (hn.resolve_right hz).symm
    · obtain ⟨ht, hz⟩ := not_or.1 hn
      exact valuesFitShape_of_pos (by simp [hd]) hz (fun v hv => values_not_array hv)
        (length_values ht)

def falseTensor (dims : List Nat) : OutputTensor :=
  ⟨dims, fun _ => 0, fun _ => 0, fun _ => 0, fun _ => .nan, fun _ => false, fun _ => []⟩

def flagOutput : ValueInfo := ⟨ascii "flags", .bool, [], []⟩

/-- A scalar makes the index wrap around, and the two empty rows of `[2, 0]` are lost. -/
theorem getTensorData_not_shaped :
    flagOutput.getTensorData (falseTensor []) = .error .outOfBounds ∧
      flagOutput.getTensorData (falseTensor [2, 0]) = .ok [] ∧
      ¬ Shaped (flagOutput.values (falseTensor [2, 0])) [2, 0] [] :=
  ⟨rfl, rfl, fun h => absurd (shaped_nil_iff.1 h) (by decide)⟩

example : (flagOutput.getTensorData (falseTensor [2, 1])).map Json.array =
    .ok (.array [.array [.boolean false], .array [.boolean false]]) := rfl

/-- The tensor that an identity model returns of the elements it is given. What an element of a
floating-point type keeps of a number is `round`. -/
def OutputTensor.identity (round : ElementType → Json → Double) (dims : List Nat)
    (values : List Scalar) : OutputTensor where
  dims := dims
  signed i := match values[i]? with
    | some (.int n) => .ofInt n
    | _ => 0
  unsigned i := match values[i]? with
    | some (.int n) => .ofNat n.toNat
    | _ => 0
  byte _ := 0
  real i := match values[i]? with
    | some (.real type source) => round type source
    | _ => .nan
  boolean i := match values[i]? with
    | some (.bool b) => b
    | _ => false
  string i := match values[i]? with
    | some (.string s) => s
    | _ => []

/-- An element of the type reads back a value that it was converted from. -/
def ElementType.Keeps (round : ElementType → Json → Double) (type : ElementType) (leaf : Json) :
    Prop :=
  ∃ get put value, type.get? = some get ∧ type.put? = some put ∧ get leaf = .ok value ∧
    put (.identity round [] [value]) 0 = leaf

variable {get : Json → Except Exception Scalar} {values : List Scalar}

theorem put_identity {type : ElementType} (hget : type.get? = some get)
    (hput : type.put? = some put) (hv : values[i]? = some value)
    (round : ElementType → Json → Double) (dims : List Nat) :
    put (.identity round dims values) i = put (.identity round [] [value]) 0 := by
  cases type with
  | undefined => cases hget
  | _ =>
    cases hput
    simp [OutputTensor.identity, hv, ElementType.get?] at hget ⊢

theorem values_identity {round : ElementType → Json → Double} {leaves : List Json}
    (hget : info.element_type.get? = some get) (hvalues : leaves.mapM get = .ok values)
    (hlen : leaves.length = dims.prod)
    (hkeeps : ∀ leaf ∈ leaves, info.element_type.Keeps round leaf) :
    info.values (.identity round dims values) = leaves := by
  have hput : ∃ put, info.element_type.put? = some put := by
    cases hp : info.element_type.put? with
    | none =>
      rw [put_eq_none.1 hp] at hget
      cases hget
    | some put => exact ⟨put, rfl⟩
  obtain ⟨put, hput⟩ := hput
  rw [ValueInfo.values, hput]
  apply List.ext_getElem
  · simp [OutputTensor.getElementCount, OutputTensor.identity, hlen]
  · intro i h₁ h₂
    have hleaf := List.getElem?_eq_getElem h₂
    obtain ⟨value, hvalue, hconv⟩ := forall₂_getElem? (mapM_forall₂ hvalues) hleaf
    obtain ⟨get', put', value', hget', hput', hconv', hback⟩ := hkeeps _ (List.getElem_mem h₂)
    obtain rfl := Option.some.inj (hget.symm.trans hget')
    obtain rfl := Option.some.inj (hput.symm.trans hput')
    obtain rfl := Except.ok.inj (hconv.symm.trans hconv')
    rw [List.getElem_map, List.getElem_range, put_identity hget hput hvalue, hback]

theorem mapM_keeps {round : ElementType → Json → Double} {type : ElementType} {leaves : List Json}
    (hget : type.get? = some get) (hkeeps : ∀ leaf ∈ leaves, type.Keeps round leaf) :
    ∃ values, leaves.mapM get = .ok values := by
  induction leaves with
  | nil => exact ⟨[], rfl⟩
  | cons leaf leaves ih =>
    obtain ⟨get', _, value, hget', _, hconv, _⟩ := hkeeps leaf List.mem_cons_self
    obtain rfl := Option.some.inj (hget.symm.trans hget')
    obtain ⟨values, hvalues⟩ := ih fun l hl => hkeeps l (List.mem_cons_of_mem _ hl)
    refine ⟨value :: values, ?_⟩
    rw [List.mapM_cons, hconv, hvalues]
    rfl

/-- Encoding a rectangular array and decoding it again gives it back, and so does an identity model
whose elements keep each leaf: what `get_tensor_data` makes of the tensor that was sent is the
array. -/
theorem context_roundTrip (hr : dims ≠ []) (hd : ∀ d ∈ dims, 1 ≤ d) (h : j.Rect dims) :
    calcShape j dims.length [] = dims.map Nat.cast ∧
    (flatJsonValues j []).length = dims.prod ∧
    (∀ is, InRange is dims → ∃ leaf, follow Json.children is j = some leaf ∧
      leaf.isArray = false ∧ (flatJsonValues j [])[rowMajor dims is]? = some leaf) ∧
    ∃ items, j = .array items ∧
      valuesFitShape (flatJsonValues j []) (calcShape j dims.length []) dims.length = .ok items ∧
      (∀ (get : Json → Except Exception Scalar) (decode : Scalar → Json) (values : List Scalar),
        (flatJsonValues j []).mapM get = .ok values →
        (∀ leaf ∈ flatJsonValues j [], ∀ value, get leaf = .ok value → decode value = leaf) →
        valuesFitShape (values.map decode) (calcShape j dims.length []) dims.length =
          .ok items) ∧
      ∀ (round : ElementType → Json → Double) (info : ValueInfo) get,
        info.element_type.get? = some get →
        (∀ leaf ∈ flatJsonValues j [], info.element_type.Keeps round leaf) →
        ∃ values, (flatJsonValues j []).mapM get = .ok values ∧
          (OutputTensor.identity round dims values).getShape = calcShape j dims.length [] ∧
          info.getTensorData (.identity round dims values) = .ok items := by
  obtain ⟨items, hj, hfit⟩ := valuesFitShape_of_rect h hr hd
  have hshape := calcShape_of_rect h hd
  have hlength := flatJsonValues_length h
  refine ⟨hshape, hlength, ?_, items, hj, ?_, ?_, ?_⟩
  · intro is his
    obtain ⟨leaf, hleaf, hnone⟩ := h.follow_leaf his
    refine ⟨leaf, hleaf, ?_, (flatJsonValues_getElem h his).trans hleaf⟩
    cases leaf with
    | array items => cases hnone
    | _ => rfl
  · rw [hshape, hfit]
  · intro get decode values hv hdec
    rw [map_decode_eq (mapM_forall₂ hv) hdec, hshape, hfit]
  · intro round info get hget hkeeps
    obtain ⟨values, hvalues⟩ := mapM_keeps hget hkeeps
    refine ⟨values, hvalues, hshape.symm, ?_⟩
    rw [ValueInfo.getTensorData, values_identity hget hvalues hlength hkeeps,
      OutputTensor.getShape, List.length_map]
    exact hfit

def square : Json :=
  .array [.array [.boolean true, .boolean false], .array [.boolean false, .boolean true]]

theorem context_roundTrip_square :
    calcShape square 2 [] = [2, 2] ∧
      ∃ items, square = .array items ∧
        valuesFitShape (flatJsonValues square []) (calcShape square 2 []) 2 = .ok items ∧
        ∃ values, (flatJsonValues square []).mapM getBool = .ok values ∧
          flagOutput.getTensorData (.identity (fun _ _ => .nan) [2, 2] values) = .ok items := by
  have hrect : square.Rect [2, 2] := by simp [square, Json.Rect, Nested.Rect, Json.children]
  obtain ⟨hshape, _, _, items, hj, hfit, _, hidentity⟩ :=
    context_roundTrip (by simp) (by simp) hrect
  have hkeeps : ∀ leaf ∈ flatJsonValues square [],
      flagOutput.element_type.Keeps (fun _ _ => .nan) leaf := by
    intro leaf hleaf
    obtain ⟨b, rfl⟩ : ∃ b, leaf = .boolean b := by
      simp only [square, flatJsonValues, flatItems, List.nil_append, List.cons_append,
        List.mem_cons, List.not_mem_nil, or_false] at hleaf
      rcases hleaf with rfl | rfl | rfl | rfl <;> exact ⟨_, rfl⟩
    exact ⟨_, _, _, rfl, rfl, rfl, rfl⟩
  obtain ⟨values, hvalues, _, hdata⟩ := hidentity (fun _ _ => .nan) flagOutput getBool rfl hkeeps
  exact ⟨hshape, items, hj, hfit, values, hvalues, hdata⟩

end OnnxruntimeServer
