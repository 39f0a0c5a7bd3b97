import OnnxruntimeServer.Exceptions

namespace OnnxruntimeServer
set_option autoImplicit true

/-- A `double`: `± mant * 2 ^ exp`, an infinity or a NaN. -/
inductive Double where
  | finite (neg : Bool) (mant : Fin (2 ^ 53)) (exp : Int)
  | infinite (neg : Bool)
  | nan

/-- A value of `nlohmann::json`. An object lists its members in the order of their keys. -/
inductive Json where
  | null
  | boolean (b : Bool)
  | integer (i : Int64)
  | unsigned (n : UInt64)
  | float (x : Double)
  | string (s : Bytes)
  | array (items : List Json)
  | object (members : List (Bytes × Json))

namespace Json

def typeName : Json → Bytes
  | .null => ascii "null"
  | .object _ => ascii "object"
  | .array _ => ascii "array"
  | .string _ => ascii "string"
  | .boolean _ => ascii "boolean"
  | .integer _ | .unsigned _ | .float _ => ascii "number"

def isObject : Json → Bool
  | .object _ => true
  | _ => false

def isArray : Json → Bool
  | .array _ => true
  | _ => false

def isString : Json → Bool
  | .string _ => true
  | _ => false

def find (j : Json) (key : Bytes) : Option Json :=
  match j with
  | .object members => (members.find? fun e => e.1 = key).map Prod.snd
  | _ => none

def contains (j : Json) (key : Bytes) : Bool := (j.find key).isSome

/-- `j[key]` on an object: a missing member reads as null. -/
def member (j : Json) (key : Bytes) : Json := (j.find key).getD .null

def setMember (key : Bytes) (value : ν) : List (Bytes × ν) → List (Bytes × ν)
  | [] => [(key, value)]
  | e :: es =>
    if key < e.1 then (key, value) :: e :: es
    else if key = e.1 then (key, value) :: es
    else e :: setMember key value es

/-- `j[key] = value`: null becomes an object, and any other scalar or an array throws. -/
def assign (j : Json) (key : Bytes) (value : Json) : Except Exception Json :=
  match j with
  | .object members => .ok (.object (setMember key value members))
  | .null => .ok (.object [(key, value)])
  | j => .error (jsonException (ascii "type_error.305")
      (ascii "cannot use operator[] with a string argument with " ++ j.typeName))

/-- The escape of a one-byte character; characters of several bytes are copied. -/
def escapeByte (b : UInt8) : Bytes :=
  if b.toNat = 0x08 then ascii "\\b"
  else if b.toNat = 0x09 then ascii "\\t"
  else if b.toNat = 0x0A then ascii "\\n"
  else if b.toNat = 0x0C then ascii "\\f"
  else if b.toNat = 0x0D then ascii "\\r"
  else if b.toNat = 0x22 then ascii "\\\""
  else if b.toNat = 0x5C then ascii "\\\\"
  else if b.toNat ≤ 0x1F then
    ascii "\\u00" ++ [ascii "0123456789abcdef" |>.getD (b.toNat / 16) 0,
      ascii "0123456789abcdef" |>.getD (b.toNat % 16) 0]
  else [b]

def hexBytes (byte : UInt8) : Bytes :=
  [ascii "0123456789ABCDEF" |>.getD (byte.toNat / 16) 0,
    ascii "0123456789ABCDEF" |>.getD (byte.toNat % 16) 0]

/-- The loop of `dump_escaped` from byte `i` on, after `last`, with the strict error handler. -/
def dumpEscapedFrom (i : Nat) (last : UInt8) (state : Nat) : Bytes → Except Exception Bytes
  | [] =>
    if state = UTF8_ACCEPT then .ok []
    else .error (jsonException (ascii "type_error.316")
      (ascii "incomplete UTF-8 string; last byte: 0x" ++ hexBytes last))
  | b :: bs =>
    if decode state b = UTF8_REJECT then
      .error (jsonException (ascii "type_error.316")
        (ascii "invalid UTF-8 byte at index " ++ ascii (toString i) ++ ascii ": 0x" ++ hexBytes b))
    else do
      let rest ← dumpEscapedFrom (i + 1) b (decode state b) bs
      .ok ((if state = UTF8_ACCEPT then escapeByte b else [b]) ++ rest)

def dumpEscaped (s : Bytes) : Except Exception Bytes := do
  let text ← dumpEscapedFrom 0 0 UTF8_ACCEPT s
  .ok (ascii "\"" ++ text ++ ascii "\"")

mutual
/-- `dump()`, given how a `double` is printed. -/
def dump (dumpFloat : Double → Bytes) (j : Json) : Except Exception Bytes :=
  match j with
  | .null => .ok (ascii "null")
  | .boolean b => .ok (if b then ascii "true" else ascii "false")
  | .integer i => .ok (ascii (toString i.toInt))
  | .unsigned n => .ok (ascii (toString n.toNat))
  | .float x => .ok (dumpFloat x)
  | .string s => dumpEscaped s
  | .array items => do
    let text ← dumpItems dumpFloat items
    .ok (ascii "[" ++ text ++ ascii "]")
  | .object members => do
    let text ← dumpMembers dumpFloat members
    .ok (ascii "\x7b" ++ text ++ ascii "\x7d")
termination_by structural j

def dumpItems (dumpFloat : Double → Bytes) (items : List Json) : Except Exception Bytes :=
  match items with
  | [] => .ok []
  | item :: items => do
    let text ← dump dumpFloat item
    let rest ← dumpItems dumpFloat items
    .ok (text ++ (if items.isEmpty then [] else ascii ",") ++ rest)
termination_by structural items

def dumpMembers (dumpFloat : Double → Bytes) (members : List (Bytes × Json)) :
    Except Exception Bytes :=
  match members with
  | [] => .ok []
  | (key, value) :: members => do
    let name ← dumpEscaped key
    let text ← dump dumpFloat value
    let rest ← dumpMembers dumpFloat members
    .ok (name ++ ascii ":" ++ text ++ (if members.isEmpty then [] else ascii ",") ++ rest)
termination_by structural members
end

end Json

/-- The JSON text of an error reply. It holds no number, so no `double` is printed. -/
def whatToJson (type what : Bytes) : Except Exception Bytes :=
  Json.dump (fun _ => []) (.object [(ascii "error", .string what), (ascii "error_type", .string type)])

/-- What the parser does with a text: the depths it reports to the callback, in order, and then
the value or the error it ends in. -/
structure Parse where
  depths : List Int
  result : Except ParseError Json

/-- The parser and the number printer of `json.hpp`. -/
structure JsonLibrary where
  parse : Bytes → Parse
  dumpFloat : Double → Bytes

def MAX_JSON_NESTING_DEPTH : Int := 64

/-- The callback throws at the first event that is too deep, so before any later syntax error. -/
def parseRequestJson (lib : JsonLibrary) (body : Bytes) : Except Exception Json :=
  if (lib.parse body).depths.any (MAX_JSON_NESTING_DEPTH < ·) then
    .error (badRequestError (ascii "Request JSON nesting exceeds the maximum depth"))
  else match (lib.parse body).result with
    | .ok j => .ok j
    | .error e => .error e.exception

namespace Json

theorem find_setMember (key : Bytes) (value : ν) (members : List (Bytes × ν)) (k : Bytes) :
    ((setMember key value members).find? fun e => e.1 = k) =
      if key = k then some (key, value) else members.find? fun e => e.1 = k := by
  induction members with
  | nil => by_cases hk : key = k <;> simp [setMember, hk]
  | cons e members ih =>
    rw [setMember]
    by_cases hk : key = k
    · subst hk
      rw [if_pos rfl] at ih ⊢
      by_cases h₁ : key < e.1
      · rw [if_pos h₁, List.find?_cons_of_pos (by simp)]
      · rw [if_neg h₁]
        by_cases h₂ : key = e.1
        · rw [if_pos h₂, List.find?_cons_of_pos (by simp)]
        · rw [if_neg h₂, List.find?_cons_of_neg (by simpa using Ne.symm h₂), ih]
    · rw [if_neg hk] at ih ⊢
      by_cases h₁ : key < e.1
      · rw [if_pos h₁, List.find?_cons_of_neg (by simpa using hk)]
      · rw [if_neg h₁]
        by_cases h₂ : key = e.1
        · rw [if_pos h₂, List.find?_cons_of_neg (by simpa using hk),
            List.find?_cons_of_neg (by simpa [← h₂] using hk)]
        · rw [if_neg h₂, List.find?_cons, List.find?_cons, ih]

theorem mem_setMember {members : List (Bytes × ν)} (h : ∀ e ∈ members, e.1 ≠ key) (value : ν) :
    e ∈ setMember key value members ↔ e = (key, value) ∨ e ∈ members := by
  induction members with
  | nil => simp [setMember]
  | cons x members ih =>
    have hx : key ≠ x.1 := Ne.symm (h x (by simp))
    rw [setMember, if_neg hx]
    split_ifs
    · simp
    · rw [List.mem_cons, ih fun e he => h e (by simp [he]), List.mem_cons]
      tauto

/-- A string serialises exactly when it is valid UTF-8. -/
theorem dumpEscapedFrom_ok (i : Nat) (last : UInt8) (state : Nat) (s : Bytes) :
    (∃ t, dumpEscapedFrom i last state s = .ok t) ↔ decodeAll state s = some UTF8_ACCEPT := by
  induction s generalizing i last state with
  | nil =>
    rw [dumpEscapedFrom, decodeAll]
    by_cases h : state = UTF8_ACCEPT <;> simp [h]
  | cons b s ih =>
    rw [dumpEscapedFrom, decodeAll]
    by_cases h : decode state b = UTF8_REJECT
    · simp [h]
    · rw [if_neg h, if_neg h, ← ih (i + 1) b]
      cases dumpEscapedFrom (i + 1) b (decode state b) s with
      | error e => simp [bind, Except.bind]
      | ok t => simp [bind, Except.bind]

theorem isText_hexBytes (byte : UInt8) : isText (hexBytes byte) = true := by
  have h : ∀ n : Fin 16, isText [(ascii "0123456789ABCDEF").getD n 0] = true := by decide
  have hhi := h ⟨byte.toNat / 16, by have := byte.toNat_lt; omega⟩
  have hlo := h ⟨byte.toNat % 16, Nat.mod_lt _ (by decide)⟩
  rw [hexBytes, ← List.singleton_append, isText_append, hhi, hlo]
  rfl

theorem isText_dumpEscapedFrom (h : dumpEscapedFrom i last state s = .error e) :
    isText e.what = true := by
  induction s generalizing i last state with
  | nil =>
    rw [dumpEscapedFrom] at h
    split at h
    · cases h
    · obtain rfl := Except.error.inj h
      apply isText_jsonException (by decide)
      rw [isText_append, isText_hexBytes]
      decide
  | cons b s ih =>
    rw [dumpEscapedFrom] at h
    split at h
    · obtain rfl := Except.error.inj h
      apply isText_jsonException (by decide)
      rw [isText_append, isText_append, isText_append, isText_hexBytes, isText_toString]
      decide
    · rcases bind_eq_error.1 h with hr | ⟨rest, _, h⟩
      · exact ih hr
      · cases h

theorem isText_dumpEscaped (h : dumpEscaped s = .error e) : isText e.what = true := by
  rcases bind_eq_error.1 h with hs | ⟨text, _, h⟩
  · exact isText_dumpEscapedFrom hs
  · cases h

mutual
/-- The serializer names a byte and its position, and quotes nothing. -/
theorem isText_dump {dumpFloat : Double → Bytes} {j : Json} (h : j.dump dumpFloat = .error e) :
    isText e.what = true := by
  cases j with
  | string s => exact isText_dumpEscaped h
  | array items =>
    rcases bind_eq_error.1 h with hi | ⟨text, _, h⟩
    · exact isText_dumpItems hi
    · cases h
  | object members =>
    rcases bind_eq_error.1 h with hm | ⟨text, _, h⟩
    · exact isText_dumpMembers hm
    · cases h
  | _ => cases h

theorem isText_dumpItems {dumpFloat : Double → Bytes} {items : List Json}
    (h : dumpItems dumpFloat items = .error e) : isText e.what = true := by
  match items with
  | [] => cases h
  | item :: items =>
    rcases bind_eq_error.1 h with hi | ⟨text, _, h⟩
    · exact isText_dump hi
    rcases bind_eq_error.1 h with hr | ⟨rest, _, h⟩
    · exact isText_dumpItems hr
    · cases h

theorem isText_dumpMembers {dumpFloat : Double → Bytes} {members : List (Bytes × Json)}
    (h : dumpMembers dumpFloat members = .error e) : isText e.what = true := by
  match members with
  | [] => cases h
  | (key, value) :: members =>
    rcases bind_eq_error.1 h with hk | ⟨name, _, h⟩
    · exact isText_dumpEscaped hk
    rcases bind_eq_error.1 h with hv | ⟨text, _, h⟩
    · exact isText_dump hv
    rcases bind_eq_error.1 h with hr | ⟨rest, _, h⟩
    · exact isText_dumpMembers hr
    · cases h
end

theorem isText_typeName (j : Json) : isText j.typeName = true := by
  cases j <;> rfl

theorem isText_assign {j : Json} (h : j.assign key value = .error e) : isText e.what = true := by
  have htext : isText (ascii "cannot use operator[] with a string argument with " ++ j.typeName) =
      true := by
    rw [isText_append, isText_typeName]
    decide
  cases j with
  | null => cases h
  | object members => cases h
  | _ =>
    obtain rfl := Except.error.inj h
    exact isText_jsonException (by decide) htext

theorem dumpEscaped_ok (s : Bytes) : (∃ t, dumpEscaped s = .ok t) ↔ validUtf8 s = true := by
  have h := dumpEscapedFrom_ok 0 0 UTF8_ACCEPT s
  rw [validUtf8, beq_iff_eq, ← h, dumpEscaped]
  cases dumpEscapedFrom 0 0 UTF8_ACCEPT s with
  | error e => simp [bind, Except.bind]
  | ok t => simp [bind, Except.bind]

end Json

theorem whatToJson_ok (type what : Bytes) :
    (∃ t, whatToJson type what = .ok t) ↔ validUtf8 what = true ∧ validUtf8 type = true := by
  have hkey : ∃ t, Json.dumpEscaped (ascii "error") = .ok t := (Json.dumpEscaped_ok _).2 (by decide)
  have hkey' : ∃ t, Json.dumpEscaped (ascii "error_type") = .ok t :=
    (Json.dumpEscaped_ok _).2 (by decide)
  obtain ⟨k, hk⟩ := hkey
  obtain ⟨k', hk'⟩ := hkey'
  rw [← Json.dumpEscaped_ok, ← Json.dumpEscaped_ok]
  simp only [whatToJson, Json.dump, Json.dumpMembers, hk, hk']
  cases Json.dumpEscaped what <;> cases Json.dumpEscaped type <;> simp [bind, Except.bind]

end OnnxruntimeServer
