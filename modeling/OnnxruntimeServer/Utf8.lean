import Mathlib

namespace OnnxruntimeServer
set_option autoImplicit true

abbrev Bytes := List UInt8

/-- The bytes of a literal of the source. -/
def ascii (s : String) : Bytes := s.toList.map fun c => UInt8.ofNat c.toNat

/-- What `c_str()` shows of a string: everything before its first NUL. -/
def cString (s : Bytes) : Bytes := s.takeWhile fun b => 0 < b.toNat

def UTF8_ACCEPT : Nat := 0
def UTF8_REJECT : Nat := 1

/-- The first 256 entries of `utf8d`: the class of a byte. -/
def byteClass (byte : UInt8) : Nat :=
  let b := byte.toNat
  if b ≤ 0x7F then 0
  else if b ≤ 0x8F then 1
  else if b ≤ 0x9F then 9
  else if b ≤ 0xBF then 7
  else if b ≤ 0xC1 then 8
  else if b ≤ 0xDF then 2
  else if b = 0xE0 then 0xA
  else if b = 0xED then 0x4
  else if b ≤ 0xEF then 0x3
  else if b = 0xF0 then 0xB
  else if b ≤ 0xF3 then 0x6
  else if b = 0xF4 then 0x5
  else 0x8

/-- The remaining entries of `utf8d`: one row of successor states for each state. -/
def transitions : List (List Nat) :=
  [[0, 1, 2, 3, 5, 8, 7, 1, 1, 1, 4, 6, 1, 1, 1, 1],
   [1, 1, 1, 1, 1, 1, 1, 1, 1, 1, 1, 1, 1, 1, 1, 1],
   [1, 0, 1, 1, 1, 1, 1, 0, 1, 0, 1, 1, 1, 1, 1, 1],
   [1, 2, 1, 1, 1, 1, 1, 2, 1, 2, 1, 1, 1, 1, 1, 1],
   [1, 1, 1, 1, 1, 1, 1, 2, 1, 1, 1, 1, 1, 1, 1, 1],
   [1, 2, 1, 1, 1, 1, 1, 1, 1, 2, 1, 1, 1, 1, 1, 1],
   [1, 1, 1, 1, 1, 1, 1, 3, 1, 3, 1, 1, 1, 1, 1, 1],
   [1, 3, 1, 1, 1, 1, 1, 3, 1, 3, 1, 1, 1, 1, 1, 1],
   [1, 3, 1, 1, 1, 1, 1, 1, 1, 1, 1, 1, 1, 1, 1, 1]]

/-- `serializer::decode`: the state after one more byte. -/
def decode (state : Nat) (byte : UInt8) : Nat :=
  ((transitions[state]?.getD [])[byteClass byte]?).getD UTF8_REJECT

/-- The state after a whole string, or `none` as soon as a byte is rejected. -/
def decodeAll : Nat → Bytes → Option Nat
  | state, [] => some state
  | state, b :: bs =>
    if decode state b = UTF8_REJECT then none else decodeAll (decode state b) bs

/-- The strings that `dump()` accepts: no byte is rejected and no sequence is left open. -/
def validUtf8 (s : Bytes) : Bool := decodeAll UTF8_ACCEPT s == some UTF8_ACCEPT

/-- Seven-bit text without NUL, such as every literal of the source. -/
def isText (s : Bytes) : Bool := s.all fun b => 0 < b.toNat && b.toNat < 128

theorem decode_ascii (state : Nat) (hb : b.toNat < 128) :
    decode state b = if state = UTF8_ACCEPT then UTF8_ACCEPT else UTF8_REJECT := by
  have hc : byteClass b = 0 := if_pos (by omega)
  rw [decode, hc]
  match state with
  | 0 | 1 | 2 | 3 | 4 | 5 | 6 | 7 | 8 => rfl
  | _ + 9 => rfl

theorem decodeAll_append (state : Nat) (s t : Bytes) :
    decodeAll state (s ++ t) = (decodeAll state s).bind (decodeAll · t) := by
  induction s generalizing state with
  | nil => rfl
  | cons b s ih =>
    rw [List.cons_append, decodeAll, decodeAll]
    split_ifs with h
    · rfl
    · exact ih _

theorem isText_cons : isText (b :: s) = true ↔ (0 < b.toNat ∧ b.toNat < 128) ∧ isText s = true := by
  simp [isText]

theorem isText_append : isText (s ++ t) = (isText s && isText t) := List.all_append

theorem isText_toString (n : Nat) : isText (ascii (toString n)) = true := by
  have hdigit : ∀ c ∈ (toString n).toList, c.isDigit := by
    intro c hc
    rw [Nat.toString_eq_repr, Nat.toList_repr] at hc
    exact Nat.isDigit_of_mem_toDigits (by decide) le_rfl hc
  simp only [isText, ascii, List.all_map, List.all_eq_true]
  intro c hc
  have h := hdigit c hc
  simp only [Char.isDigit, Bool.and_eq_true, decide_eq_true_eq, UInt32.le_iff_toNat_le] at h
  have hlt : c.toNat % 2 ^ 8 = c.toNat := Nat.mod_eq_of_lt (lt_of_le_of_lt h.2 (by decide))
  simp only [Function.comp_apply, UInt8.toNat_ofNat', hlt, Bool.and_eq_true, decide_eq_true_eq]
  exact ⟨lt_of_lt_of_le (by decide) h.1, lt_of_le_of_lt h.2 (by decide)⟩

theorem decodeAll_text (h : isText s = true) : decodeAll UTF8_ACCEPT s = some UTF8_ACCEPT := by
  induction s with
  | nil => rfl
  | cons b s ih =>
    obtain ⟨hb, hs⟩ := isText_cons.1 h
    rw [decodeAll, decode_ascii _ hb.2, if_pos rfl]
    exact ih hs

theorem validUtf8_text (h : isText s = true) : validUtf8 s = true := by
  rw [validUtf8, decodeAll_text h]
  rfl

theorem validUtf8_text_append (h : isText s = true) (t : Bytes) :
    validUtf8 (s ++ t) = validUtf8 t := by
  rw [validUtf8, decodeAll_append, decodeAll_text h]
  rfl

/-- Text after a string cannot repair it, because no open sequence continues with it. -/
theorem validUtf8_append_text (s : Bytes) (h : isText t = true) :
    validUtf8 (s ++ t) = validUtf8 s := by
  cases t with
  | nil => rw [List.append_nil]
  | cons b t =>
    obtain ⟨hb, ht⟩ := isText_cons.1 h
    rw [validUtf8, validUtf8, decodeAll_append]
    cases decodeAll UTF8_ACCEPT s with
    | none => rfl
    | some state =>
      rw [Option.bind_some, decodeAll, decode_ascii _ hb.2]
      by_cases hs : state = UTF8_ACCEPT
      · subst hs
        rw [if_pos rfl, if_neg (by decide), decodeAll_text ht]
      · rw [if_neg hs, if_pos rfl]
        simp [hs]

theorem validUtf8_quote (hs : isText s = true) (ht : isText t = true) (q : Bytes) :
    validUtf8 (s ++ q ++ t) = validUtf8 q := by
  rw [validUtf8_append_text _ ht, validUtf8_text_append hs]

theorem cString_text_append (h : isText s = true) (t : Bytes) :
    cString (s ++ t) = s ++ cString t := by
  induction s with
  | nil => rfl
  | cons b s ih =>
    obtain ⟨hb, hs⟩ := isText_cons.1 h
    rw [List.cons_append, cString, List.takeWhile_cons_of_pos (by simpa using hb.1)]
    exact congrArg (b :: ·) (ih hs)

theorem cString_text (h : isText s = true) : cString s = s := by
  have hs := cString_text_append h []
  rwa [List.append_nil, show cString [] = [] from rfl, List.append_nil] at hs

end OnnxruntimeServer
