import OnnxruntimeServer.Utf8
import OnnxruntimeServer.Lib.Endian

namespace OnnxruntimeServer
set_option autoImplicit true
open Endian

/-- `htons` of a little-endian host; `ntohs` is the same function. -/
def htons (x : UInt16) : UInt16 := .ofNat (swap 2 x.toNat)

/-- `htonl` of a little-endian host; `ntohl` is the same function. -/
def htonl (x : UInt32) : UInt32 := .ofNat (swap 4 x.toNat)

def HTONLL (x : UInt64) : UInt64 :=
  ((htonl x.toUInt32).toUInt64 <<< 32) + (htonl (x >>> 32).toUInt32).toUInt64

def NTOHLL (x : UInt64) : UInt64 :=
  ((htonl x.toUInt32).toUInt64 <<< 32) + (htonl (x >>> 32).toUInt32).toUInt64

structure ProtocolHeader where
  type : Int16
  length : Int64
  json_length : Int64
  post_length : Int64
  deriving DecidableEq

namespace ProtocolHeader

/-- `sizeof(protocol_header)`, which is packed. -/
def size : Nat := 26

/-- The bytes of the packed struct in the memory of a little-endian host. -/
def memory (header : ProtocolHeader) : Bytes :=
  bytes 2 header.type.toUInt16.toNat ++ bytes 8 header.length.toUInt64.toNat ++
    bytes 8 header.json_length.toUInt64.toNat ++ bytes 8 header.post_length.toUInt64.toNat

def ofMemory (memory : Bytes) : ProtocolHeader where
  type := (UInt16.ofNat (value (memory.take 2))).toInt16
  length := (UInt64.ofNat (value ((memory.drop 2).take 8))).toInt64
  json_length := (UInt64.ofNat (value ((memory.drop 10).take 8))).toInt64
  post_length := (UInt64.ofNat (value ((memory.drop 18).take 8))).toInt64

/-- The conversions that `do_read` applies to the fields it has read. -/
def toHost (header : ProtocolHeader) : ProtocolHeader where
  type := (htons header.type.toUInt16).toInt16
  length := (NTOHLL header.length.toUInt64).toInt64
  json_length := (NTOHLL header.json_length.toUInt64).toInt64
  post_length := (NTOHLL header.post_length.toUInt64).toInt64

/-- The protocol's form of a header: its fields one after the other, each in big-endian order. -/
def wire (header : ProtocolHeader) : Bytes :=
  (bytes 2 header.type.toUInt16.toNat).reverse ++ (bytes 8 header.length.toUInt64.toNat).reverse ++
    (bytes 8 header.json_length.toUInt64.toNat).reverse ++
    (bytes 8 header.post_length.toUInt64.toNat).reverse

end ProtocolHeader

theorem htons_toNat (x : UInt16) : (htons x).toNat = swap 2 x.toNat :=
  Nat.mod_eq_of_lt (swap_lt 2 x.toNat)

theorem htonl_toNat (x : UInt32) : (htonl x).toNat = swap 4 x.toNat :=
  Nat.mod_eq_of_lt (swap_lt 4 x.toNat)

theorem HTONLL_toNat (x : UInt64) : (HTONLL x).toNat = swap 8 x.toNat := by
  have hx := x.toNat_lt
  have hlo := swap_lt 4 (x.toNat % 2 ^ 32)
  have hhi := swap_lt 4 (x.toNat / 2 ^ 32)
  have hsplit : swap 8 x.toNat =
      swap 4 (x.toNat / 2 ^ 32) + 256 ^ 4 * swap 4 (x.toNat % 2 ^ 32) := by
    have h := swap_add (m := x.toNat % 2 ^ 32) (j := 4) (by omega) 4 (x.toNat / 2 ^ 32)
    rwa [show x.toNat % 2 ^ 32 + 256 ^ 4 * (x.toNat / 2 ^ 32) = x.toNat by omega] at h
  have hshift : (x >>> 32).toUInt32.toNat = x.toNat / 2 ^ 32 := by
    rw [UInt64.toNat_toUInt32, UInt64.toNat_shiftRight, Nat.shiftRight_eq_div_pow]
    exact Nat.mod_eq_of_lt (Nat.div_lt_of_lt_mul (by simpa using hx))
  have hhigh : ((htonl x.toUInt32).toUInt64 <<< 32).toNat = swap 4 (x.toNat % 2 ^ 32) * 2 ^ 32 := by
    rw [UInt64.toNat_shiftLeft, UInt32.toNat_toUInt64, htonl_toNat, UInt64.toNat_toUInt32,
      Nat.shiftLeft_eq, show (32 : UInt64).toNat % 64 = 32 from rfl]
    exact Nat.mod_eq_of_lt (by omega)
  rw [HTONLL, UInt64.toNat_add, hhigh, UInt32.toNat_toUInt64, htonl_toNat, hshift, hsplit]
  omega

theorem NTOHLL_toNat (x : UInt64) : (NTOHLL x).toNat = swap 8 x.toNat := HTONLL_toNat x

namespace ProtocolHeader

theorem length_wire (header : ProtocolHeader) : header.wire.length = size := by
  simp [wire, size]

theorem take_drop_field (front rest : Bytes) {field : Bytes} (hf : front.length = m)
    (hl : field.length = n) : ((front ++ field ++ rest).drop m).take n = field := by
  subst hf hl
  simp

theorem ofMemory_fields {type length json_length post_length : Bytes} (ht : type.length = 2)
    (hl : length.length = 8) (hj : json_length.length = 8) (hp : post_length.length = 8) :
    ofMemory (type ++ length ++ json_length ++ post_length) =
      ⟨(UInt16.ofNat (value type)).toInt16, (UInt64.ofNat (value length)).toInt64,
        (UInt64.ofNat (value json_length)).toInt64, (UInt64.ofNat (value post_length)).toInt64⟩ := by
  have htype := take_drop_field [] (length ++ json_length ++ post_length) rfl ht
  have hlen := take_drop_field type (json_length ++ post_length) ht hl
  have hjson := take_drop_field (m := 10) (type ++ length) post_length (by simp [ht, hl]) hj
  have hpost := take_drop_field (m := 18) (type ++ length ++ json_length) []
    (by simp [ht, hl, hj]) hp
  simp only [List.nil_append, List.append_nil, List.length_nil, List.drop_zero,
    List.append_assoc] at *
  simp only [ofMemory, htype, hlen, hjson, hpost]

theorem htons_reverse (x : UInt16) :
    htons (UInt16.ofNat (value (bytes 2 x.toNat).reverse)) = x := by
  apply UInt16.toNat_inj.1
  rw [htons_toNat, ← swap, UInt16.toNat_ofNat_of_lt' (swap_lt 2 x.toNat), swap_swap x.toNat_lt]

theorem NTOHLL_reverse (x : UInt64) :
    NTOHLL (UInt64.ofNat (value (bytes 8 x.toNat).reverse)) = x := by
  apply UInt64.toNat_inj.1
  rw [NTOHLL_toNat, ← swap, UInt64.toNat_ofNat_of_lt' (swap_lt 8 x.toNat), swap_swap x.toNat_lt]

/-- Reading a header from the wire and converting it to host order gives its fields back. -/
theorem toHost_ofMemory_wire (header : ProtocolHeader) : (ofMemory header.wire).toHost = header := by
  rw [wire, ofMemory_fields (by simp) (by simp) (by simp) (by simp), toHost]
  simp only [UInt16.toUInt16_toInt16, UInt64.toUInt64_toInt64, htons_reverse, NTOHLL_reverse,
    Int16.toInt16_toUInt16, Int64.toInt64_toUInt64]

end ProtocolHeader
end OnnxruntimeServer
