import OnnxruntimeServer.Lib.Utf8Sequences
import OnnxruntimeServer.Numerals

namespace OnnxruntimeServer
set_option autoImplicit true

structure Position where
  chars_read_total : Nat := 0
  chars_read_current_line : Nat := 0
  lines_read : Nat := 0

/-- The texts that `error_message` points to. -/
inductive LexerError where
  | missingQuote
  | hexDigits
  | highSurrogate
  | lowSurrogate
  | backslash
  | controlCharacter (b : Fin 32)
  | illFormed
  | minus
  | decimalPoint
  | exponent
  | exponentSign
  | literal
  | bom

namespace LexerError

def controlNames : List String :=
  ["NUL", "SOH", "STX", "ETX", "EOT", "ENQ", "ACK", "BEL", "BS", "HT", "LF", "VT", "FF", "CR", "SO",
    "SI", "DLE", "DC1", "DC2", "DC3", "DC4", "NAK", "SYN", "ETB", "CAN", "EM", "SUB", "ESC", "FS",
    "GS", "RS", "US"]

def shortEscape (b : Fin 32) : Bytes :=
  if b = 0x08 then ascii " or \\b"
  else if b = 0x09 then ascii " or \\t"
  else if b = 0x0A then ascii " or \\n"
  else if b = 0x0C then ascii " or \\f"
  else if b = 0x0D then ascii " or \\r"
  else []

def text : LexerError → Bytes
  | .missingQuote => ascii "invalid string: missing closing quote"
  | .hexDigits => ascii "invalid string: '\\u' must be followed by 4 hex digits"
  | .highSurrogate =>
    ascii "invalid string: surrogate U+D800..U+DBFF must be followed by U+DC00..U+DFFF"
  | .lowSurrogate => ascii "invalid string: surrogate U+DC00..U+DFFF must follow U+D800..U+DBFF"
  | .backslash => ascii "invalid string: forbidden character after backslash"
  | .controlCharacter b =>
    ascii "invalid string: control character U+00" ++ Json.hexBytes (.ofNat b) ++ ascii " (" ++
      ascii (controlNames.getD b "") ++ ascii ") must be escaped to \\u00" ++
      Json.hexBytes (.ofNat b) ++ shortEscape b
  | .illFormed => ascii "invalid string: ill-formed UTF-8 byte"
  | .minus => ascii "invalid number; expected digit after '-'"
  | .decimalPoint => ascii "invalid number; expected digit after '.'"
  | .exponent => ascii "invalid number; expected '+', '-', or digit after exponent"
  | .exponentSign => ascii "invalid number; expected digit after exponent sign"
  | .literal => ascii "invalid literal"
  | .bom => ascii "invalid BOM; must be 0xEF 0xBB 0xBF if given"

theorem isText_text (e : LexerError) : isText e.text = true := by
  cases e with
  | controlCharacter b =>
    revert b
    decide
  | _ => decide

end LexerError

/-- `token_type`, with the value or the error that the lexer keeps for it. -/
inductive Token where
  | uninitialized
  | literalTrue
  | literalFalse
  | literalNull
  | valueString (s : Bytes)
  | valueUnsigned (n : UInt64)
  | valueInteger (i : Int64)
  | valueFloat (x : Double)
  | beginArray
  | beginObject
  | endArray
  | endObject
  | nameSeparator
  | valueSeparator
  | parseError (e : LexerError)
  | endOfInput
  | literalOrValue

def Token.typeName : Token → Bytes
  | .uninitialized => ascii "<uninitialized>"
  | .literalTrue => ascii "true literal"
  | .literalFalse => ascii "false literal"
  | .literalNull => ascii "null literal"
  | .valueString _ => ascii "string literal"
  | .valueUnsigned _ | .valueInteger _ | .valueFloat _ => ascii "number literal"
  | .beginArray => ascii "'['"
  | .beginObject => ascii "'\x7b'"
  | .endArray => ascii "']'"
  | .endObject => ascii "'\x7d'"
  | .nameSeparator => ascii "':'"
  | .valueSeparator => ascii "','"
  | .parseError _ => ascii "<parse error>"
  | .endOfInput => ascii "end of input"
  | .literalOrValue => ascii "'[', '\x7b', or a literal"

/-- The lexer between two calls. There is no current character before the first one and at the end
of the input. -/
structure Lexer where
  input : Bytes
  current : Option UInt8 := none
  next_unget : Bool := false
  position : Position := {}
  token_string : Bytes := []
  token_buffer : Bytes := []

namespace Lexer

def ofText (body : Bytes) : Lexer := { input := body }

/-- The byte that the next `get` reads again. To read the end of the input again is to read on. -/
def again (lx : Lexer) : Option UInt8 := if lx.next_unget then lx.current else none

def get (lx : Lexer) : Lexer :=
  let current := lx.again.or lx.input.head?
  { lx with
    input := if lx.again.isSome then lx.input else lx.input.tail
    current := current
    next_unget := false
    position :=
      { chars_read_total := lx.position.chars_read_total + 1
        chars_read_current_line :=
          if current = some 0x0A then 0 else lx.position.chars_read_current_line + 1
        lines_read := lx.position.lines_read + if current = some 0x0A then 1 else 0 }
    token_string := lx.token_string ++ current.toList }

def unget (lx : Lexer) : Lexer :=
  { lx with
    next_unget := true
    position :=
      { chars_read_total := lx.position.chars_read_total - 1
        chars_read_current_line := lx.position.chars_read_current_line - 1
        lines_read :=
          lx.position.lines_read - if lx.position.chars_read_current_line = 0 then 1 else 0 }
    token_string := if lx.current.isSome then lx.token_string.dropLast else lx.token_string }

def reset (lx : Lexer) : Lexer :=
  { lx with token_buffer := [], token_string := lx.current.toList }

def add (lx : Lexer) (bytes : Bytes) : Lexer :=
  { lx with token_buffer := lx.token_buffer ++ bytes }

/-- What the next calls of `get` read. -/
def rest (lx : Lexer) : Bytes := lx.again.toList ++ lx.input

def hexDigit (b : UInt8) : Option Nat :=
  if 0x30 ≤ b.toNat ∧ b.toNat ≤ 0x39 then some (b.toNat - 0x30)
  else if 0x41 ≤ b.toNat ∧ b.toNat ≤ 0x46 then some (b.toNat - 0x37)
  else if 0x61 ≤ b.toNat ∧ b.toNat ≤ 0x66 then some (b.toNat - 0x57)
  else none

def getCodepointFrom (lx : Lexer) (codepoint : Nat) : List Nat → Option Nat × Lexer
  | [] => (some codepoint, lx)
  | factor :: factors =>
    match lx.get.current.bind hexDigit with
    | some digit => lx.get.getCodepointFrom (codepoint + digit <<< factor) factors
    | none => (none, lx.get)

def getCodepoint (lx : Lexer) : Option Nat × Lexer := lx.getCodepointFrom 0 [12, 8, 4, 0]

def nextByteInRangeFrom (lx : Lexer) : List (Nat × Nat) → Bool × Lexer
  | [] => (true, lx)
  | (l, u) :: ranges =>
    match lx.get.current with
    | some b =>
      if l ≤ b.toNat ∧ b.toNat ≤ u then (lx.get.add [b]).nextByteInRangeFrom ranges
      else (false, lx.get)
    | none => (false, lx.get)

def nextByteInRange (lx : Lexer) (ranges : List (Nat × Nat)) : Bool × Lexer :=
  (lx.add lx.current.toList).nextByteInRangeFrom ranges

/-- The bytes that `scan_string` adds for a code point. -/
def encode (codepoint : Nat) : Bytes :=
  if codepoint < 0x80 then [.ofNat codepoint]
  else if codepoint ≤ 0x7FF then
    [.ofNat (0xC0 ||| codepoint >>> 6), .ofNat (0x80 ||| codepoint &&& 0x3F)]
  else if codepoint ≤ 0xFFFF then
    [.ofNat (0xE0 ||| codepoint >>> 12), .ofNat (0x80 ||| codepoint >>> 6 &&& 0x3F),
      .ofNat (0x80 ||| codepoint &&& 0x3F)]
  else
    [.ofNat (0xF0 ||| codepoint >>> 18), .ofNat (0x80 ||| codepoint >>> 12 &&& 0x3F),
      .ofNat (0x80 ||| codepoint >>> 6 &&& 0x3F), .ofNat (0x80 ||| codepoint &&& 0x3F)]

/-- The escape that starts with a high surrogate takes a second one. -/
def scanLowSurrogate (lx : Lexer) (codepoint1 : Nat) : Option LexerError × Lexer :=
  if lx.get.current = some 0x5C then
    if lx.get.get.current = some 0x75 then
      match lx.get.get.getCodepoint with
      | (none, lx) => (some .hexDigits, lx)
      | (some codepoint2, lx) =>
        if 0xDC00 ≤ codepoint2 ∧ codepoint2 ≤ 0xDFFF then
          (none, lx.add (encode (codepoint1 <<< 10 + codepoint2 - 0x35FDC00)))
        else (some .highSurrogate, lx)
    else (some .highSurrogate, lx.get.get)
  else (some .highSurrogate, lx.get)

def scanUnicode (lx : Lexer) : Option LexerError × Lexer :=
  match lx.getCodepoint with
  | (none, lx) => (some .hexDigits, lx)
  | (some codepoint1, lx) =>
    if 0xD800 ≤ codepoint1 ∧ codepoint1 ≤ 0xDBFF then lx.scanLowSurrogate codepoint1
    else if 0xDC00 ≤ codepoint1 ∧ codepoint1 ≤ 0xDFFF then (some .lowSurrogate, lx)
    else (none, lx.add (encode codepoint1))

/-- The character that an escape of one letter stands for. -/
def escaped (b : UInt8) : Option UInt8 :=
  if b = 0x22 then some 0x22
  else if b = 0x5C then some 0x5C
  else if b = 0x2F then some 0x2F
  else if b = 0x62 then some 0x08
  else if b = 0x66 then some 0x0C
  else if b = 0x6E then some 0x0A
  else if b = 0x72 then some 0x0D
  else if b = 0x74 then some 0x09
  else none

/-- What follows a backslash: the error it ends the string with, or what it adds. -/
def scanEscape (lx : Lexer) : Option LexerError × Lexer :=
  if lx.get.current = some 0x75 then lx.get.scanUnicode
  else match lx.get.current.bind escaped with
    | some b => (none, lx.get.add [b])
    | none => (some .backslash, lx.get)

/-- The bytes that `scan_string` expects after the first byte of a longer character. -/
def byteRanges (b : UInt8) : Option (List (Nat × Nat)) :=
  if 0xC2 ≤ b.toNat ∧ b.toNat ≤ 0xDF then some [(0x80, 0xBF)]
  else if b.toNat = 0xE0 then some [(0xA0, 0xBF), (0x80, 0xBF)]
  else if 0xE1 ≤ b.toNat ∧ b.toNat ≤ 0xEC ∨ 0xEE ≤ b.toNat ∧ b.toNat ≤ 0xEF then
    some [(0x80, 0xBF), (0x80, 0xBF)]
  else if b.toNat = 0xED then some [(0x80, 0x9F), (0x80, 0xBF)]
  else if b.toNat = 0xF0 then some [(0x90, 0xBF), (0x80, 0xBF), (0x80, 0xBF)]
  else if 0xF1 ≤ b.toNat ∧ b.toNat ≤ 0xF3 then some [(0x80, 0xBF), (0x80, 0xBF), (0x80, 0xBF)]
  else if b.toNat = 0xF4 then some [(0x80, 0x8F), (0x80, 0xBF), (0x80, 0xBF)]
  else none

theorem current_get (lx : Lexer) : lx.get.current = lx.rest.head? := by
  rw [get, rest]
  cases lx.again <;> rfl

theorem rest_get (lx : Lexer) : lx.get.rest = lx.rest.tail := by
  rw [rest, rest, get]
  cases lx.again <;> rfl

@[simp] theorem rest_add (lx : Lexer) (bytes : Bytes) : (lx.add bytes).rest = lx.rest := rfl

@[simp] theorem rest_reset (lx : Lexer) : lx.reset.rest = lx.rest := rfl

theorem rest_unget_get (lx : Lexer) : lx.get.unget.rest = lx.rest := by
  rw [rest, rest, again, unget, if_pos rfl, get]
  cases lx.again with
  | none => cases lx.input <;> rfl
  | some b => rfl

theorem length_get_lt {lx : Lexer} (h : lx.get.current = some b) :
    lx.get.rest.length < lx.rest.length := by
  rw [current_get] at h
  rw [rest_get, List.length_tail]
  have hpos : 0 < lx.rest.length := List.length_pos_of_mem (List.mem_of_head? h)
  omega

/-- A property that reading and storing a character keep. -/
structure Keeps (P : Lexer → Prop) : Prop where
  get (lx : Lexer) : P lx → P lx.get
  unget (lx : Lexer) : P lx → P lx.get.unget
  add (lx : Lexer) (bytes : Bytes) : P lx → P (lx.add bytes)
  reset (lx : Lexer) : P lx → P lx.reset

variable {P : Lexer → Prop} {lx : Lexer}

theorem keeps_getCodepointFrom (k : Keeps P) (h : P lx) (codepoint : Nat) (factors : List Nat) :
    P (lx.getCodepointFrom codepoint factors).2 := by
  induction factors generalizing lx codepoint with
  | nil => exact h
  | cons factor factors ih =>
    rw [getCodepointFrom]
    cases lx.get.current.bind hexDigit with
    | none => exact k.get lx h
    | some digit => exact ih (k.get lx h) _

theorem keeps_nextByteInRangeFrom (k : Keeps P) (h : P lx) (ranges : List (Nat × Nat)) :
    P (lx.nextByteInRangeFrom ranges).2 := by
  induction ranges generalizing lx with
  | nil => exact h
  | cons range ranges ih =>
    rw [nextByteInRangeFrom]
    cases lx.get.current with
    | none => exact k.get lx h
    | some b =>
      dsimp only
      split_ifs
      · exact ih (k.add _ _ (k.get lx h))
      · exact k.get lx h

theorem keeps_scanLowSurrogate (k : Keeps P) (h : P lx) (codepoint1 : Nat) :
    P (lx.scanLowSurrogate codepoint1).2 := by
  have hget := k.get lx h
  have hgetget := k.get _ hget
  have hcode := keeps_getCodepointFrom k hgetget 0 [12, 8, 4, 0]
  rw [scanLowSurrogate, getCodepoint]
  split_ifs
  · rcases hr : lx.get.get.getCodepointFrom 0 [12, 8, 4, 0] with ⟨_ | codepoint2, lx'⟩ <;>
      rw [hr] at hcode
    · exact hcode
    · dsimp only
      split_ifs
      · exact k.add _ _ hcode
      · exact hcode
  · exact hgetget
  · exact hget

theorem keeps_scanUnicode (k : Keeps P) (h : P lx) : P lx.scanUnicode.2 := by
  have hcode := keeps_getCodepointFrom k h 0 [12, 8, 4, 0]
  rw [scanUnicode, getCodepoint]
  rcases hr : lx.getCodepointFrom 0 [12, 8, 4, 0] with ⟨_ | codepoint1, lx'⟩ <;> rw [hr] at hcode
  · exact hcode
  · dsimp only
    split_ifs
    · exact keeps_scanLowSurrogate k hcode codepoint1
    · exact hcode
    · exact k.add _ _ hcode

theorem keeps_scanEscape (k : Keeps P) (h : P lx) : P lx.scanEscape.2 := by
  have hget := k.get lx h
  rw [scanEscape]
  split_ifs
  · exact keeps_scanUnicode k hget
  · cases lx.get.current.bind escaped with
    | none => exact hget
    | some b => exact k.add _ _ hget

theorem keeps_length (n : Nat) : Keeps fun lx => lx.rest.length ≤ n where
  get lx h := by
    rw [rest_get, List.length_tail]
    omega
  unget lx h := by
    rw [rest_unget_get]
    exact h
  add lx bytes h := h
  reset lx h := h

/-- `scan_string`, from after the opening quote or a character on. -/
def scanStringFrom (lx : Lexer) : Token × Lexer :=
  match h : lx.get.current with
  | none => (.parseError .missingQuote, lx.get)
  | some b =>
    if b = 0x22 then (.valueString lx.get.token_buffer, lx.get)
    else if b = 0x5C then
      match hr : lx.get.scanEscape with
      | (some e, lx') => (.parseError e, lx')
      | (none, lx') => scanStringFrom lx'
    else if hb : b.toNat ≤ 0x1F then
      (.parseError (.controlCharacter ⟨b.toNat, Nat.lt_succ_of_le hb⟩), lx.get)
    else if b.toNat ≤ 0x7F then scanStringFrom (lx.get.add [b])
    else match byteRanges b with
      | none => (.parseError .illFormed, lx.get)
      | some ranges =>
        match hr : lx.get.nextByteInRange ranges with
        | (false, lx') => (.parseError .illFormed, lx')
        | (true, lx') => scanStringFrom lx'
termination_by lx.rest.length
decreasing_by
  · have hle := keeps_scanEscape (keeps_length lx.get.rest.length) le_rfl
    rw [hr] at hle
    exact hle.trans_lt (length_get_lt h)
  · exact length_get_lt h
  · have hadd : (lx.get.add lx.get.current.toList).rest.length ≤ lx.get.rest.length := le_rfl
    have hle := keeps_nextByteInRangeFrom (keeps_length lx.get.rest.length) hadd ranges
    rw [nextByteInRange] at hr
    rw [hr] at hle
    exact hle.trans_lt (length_get_lt h)

def scanString (lx : Lexer) : Token × Lexer := lx.reset.scanStringFrom

end Lexer

/-- The labels of `scan_number`. -/
inductive NumberState where
  | minus
  | zero
  | any1
  | decimal1
  | decimal2
  | exponent
  | sign
  | any2

/-- The values that `number_type` takes. -/
inductive NumberType where
  | unsigned
  | integer
  | float

namespace NumberState

/-- Where the next character leads: to an error, to `scan_number_done` or to another label. -/
def next (label : NumberState) (c : Option UInt8) : Except LexerError (Option NumberState) :=
  match label with
  | .minus =>
    if c = some 0x30 then .ok (some .zero)
    else if c.any isDigit then .ok (some .any1)
    else .error .minus
  | .zero =>
    if c = some 0x2E then .ok (some .decimal1)
    else if c = some 0x65 ∨ c = some 0x45 then .ok (some .exponent)
    else .ok none
  | .any1 =>
    if c.any isDigit then .ok (some .any1)
    else if c = some 0x2E then .ok (some .decimal1)
    else if c = some 0x65 ∨ c = some 0x45 then .ok (some .exponent)
    else .ok none
  | .decimal1 => if c.any isDigit then .ok (some .decimal2) else .error .decimalPoint
  | .decimal2 =>
    if c.any isDigit then .ok (some .decimal2)
    else if c = some 0x65 ∨ c = some 0x45 then .ok (some .exponent)
    else .ok none
  | .exponent =>
    if c = some 0x2B ∨ c = some 0x2D then .ok (some .sign)
    else if c.any isDigit then .ok (some .any2)
    else .error .exponent
  | .sign => if c.any isDigit then .ok (some .any2) else .error .exponentSign
  | .any2 => if c.any isDigit then .ok (some .any2) else .ok none

/-- What a label makes of `number_type` when it is entered. -/
def enter (label : NumberState) (number_type : NumberType) : NumberType :=
  match label with
  | .minus => .integer
  | .decimal1 | .exponent => .float
  | _ => number_type

theorem next_none (label : NumberState) : label.next none ≠ .ok (some label') := by
  cases label <;> simp [next]

end NumberState

/-- `strtoull` of digits, where it sets no `errno`. -/
def strtoull (digits : Bytes) : Option UInt64 :=
  if decimal digits < 2 ^ 64 then some (.ofNat (decimal digits)) else none

/-- The token of a number. What is no integer, or does not fit one, is left to `strtod`. -/
def numberToken (strtod : Bytes → Double) (number_type : NumberType) (text : Bytes) : Token :=
  match number_type with
  | .unsigned => ((strtoull text).map Token.valueUnsigned).getD (.valueFloat (strtod text))
  | .integer => ((stoll text).map Token.valueInteger).getD (.valueFloat (strtod text))
  | .float => .valueFloat (strtod text)

namespace Lexer

def scanNumberDone (strtod : Bytes → Double) (number_type : NumberType) (lx : Lexer) :
    Token × Lexer :=
  (numberToken strtod number_type lx.unget.token_buffer, lx.unget)

def scanNumberFrom (strtod : Bytes → Double) (label : NumberState) (number_type : NumberType)
    (lx : Lexer) : Token × Lexer :=
  match h : label.next lx.get.current with
  | .error e => (.parseError e, lx.get)
  | .ok none => lx.get.scanNumberDone strtod number_type
  | .ok (some label') =>
    (lx.get.add lx.get.current.toList).scanNumberFrom strtod label' (label'.enter number_type)
termination_by lx.rest.length
decreasing_by
  rw [rest_add]
  cases hc : lx.get.current with
  | none =>
    rw [hc] at h
    exact absurd h (NumberState.next_none label)
  | some c => exact length_get_lt hc

/-- `scan` has read a minus or a digit. -/
def scanNumber (strtod : Bytes → Double) (lx : Lexer) : Token × Lexer :=
  let first := lx.reset.add lx.current.toList
  if lx.current = some 0x2D then first.scanNumberFrom strtod .minus .integer
  else if lx.current = some 0x30 then first.scanNumberFrom strtod .zero .unsigned
  else first.scanNumberFrom strtod .any1 .unsigned

def scanLiteral (token : Token) (lx : Lexer) : Bytes → Token × Lexer
  | [] => (token, lx)
  | c :: literal_text =>
    if lx.get.current = some c then lx.get.scanLiteral token literal_text
    else (.parseError .literal, lx.get)

def skipBom (lx : Lexer) : Bool × Lexer :=
  if lx.get.current = some 0xEF then
    if lx.get.get.current = some 0xBB then
      (lx.get.get.get.current == some 0xBF, lx.get.get.get)
    else (false, lx.get.get)
  else (true, lx.get.unget)

def isWhitespace (b : UInt8) : Bool := b == 0x20 || b == 0x09 || b == 0x0A || b == 0x0D

def skipWhitespace (lx : Lexer) : Lexer :=
  if h : lx.get.current.any isWhitespace then lx.get.skipWhitespace else lx.get
termination_by lx.rest.length
decreasing_by
  cases hc : lx.get.current with
  | none => simp [hc] at h
  | some c => exact length_get_lt hc

def structural (b : UInt8) : Option Token :=
  if b = 0x5B then some .beginArray
  else if b = 0x5D then some .endArray
  else if b = 0x7B then some .beginObject
  else if b = 0x7D then some .endObject
  else if b = 0x3A then some .nameSeparator
  else if b = 0x2C then some .valueSeparator
  else none

/-- The literal that a letter starts, and its other letters. -/
def literal (b : UInt8) : Option (Token × Bytes) :=
  if b = 0x74 then some (.literalTrue, ascii "rue")
  else if b = 0x66 then some (.literalFalse, ascii "alse")
  else if b = 0x6E then some (.literalNull, ascii "ull")
  else none

/-- `scan` from the first character of a token on. A NUL ends the input. -/
def scanFirst (strtod : Bytes → Double) (lx : Lexer) (b : UInt8) : Token × Lexer :=
  match structural b with
  | some token => (token, lx)
  | none =>
    match literal b with
    | some (token, literal_text) => lx.scanLiteral token literal_text
    | none =>
      if b = 0x22 then lx.scanString
      else if b = 0x2D ∨ isDigit b = true then lx.scanNumber strtod
      else if b = 0x00 then (.endOfInput, lx)
      else (.parseError .literal, lx)

/-- `scan` after the byte order mark. -/
def scanToken (strtod : Bytes → Double) (lx : Lexer) : Token × Lexer :=
  match lx.skipWhitespace.current with
  | none => (.endOfInput, lx.skipWhitespace)
  | some b => lx.skipWhitespace.scanFirst strtod b

def scan (strtod : Bytes → Double) (lx : Lexer) : Token × Lexer :=
  if lx.position.chars_read_total = 0 then
    match lx.skipBom with
    | (true, lx') => lx'.scanToken strtod
    | (false, lx') => (.parseError .bom, lx')
  else lx.scanToken strtod

end Lexer

end OnnxruntimeServer
