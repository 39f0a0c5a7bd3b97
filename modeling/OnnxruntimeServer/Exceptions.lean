import OnnxruntimeServer.Utf8

namespace OnnxruntimeServer
set_option autoImplicit true

/-- The classes of `exceptions.hpp`, and every other `std::exception`. -/
inductive ErrorKind where
  | notFoundError
  | badRequestError
  | conflictError
  | runtimeError
  | stdException
  deriving DecidableEq

/-- The `error_type` of a reply; both transports report a `std::exception` as a runtime error. -/
def ErrorKind.type : ErrorKind → Bytes
  | .notFoundError => ascii "not_found_error"
  | .badRequestError => ascii "bad_request_error"
  | .conflictError => ascii "conflict_error"
  | .runtimeError => ascii "runtime_error"
  | .stdException => ascii "runtime_error"

def ErrorKind.statusCode : ErrorKind → Nat
  | .notFoundError => 404
  | .badRequestError => 400
  | .conflictError => 409
  | .runtimeError => 500
  | .stdException => 500

/-- A thrown object: its class and the text that `what()` shows. -/
structure Exception where
  kind : ErrorKind
  what : Bytes
  deriving DecidableEq

/-- `what()` is a C string, so the text of an exception ends at its first NUL. -/
def exception (kind : ErrorKind) (what_arg : Bytes) : Exception := ⟨kind, cString what_arg⟩

def badRequestError (what_arg : Bytes) : Exception := exception .badRequestError what_arg

/-- An exception of `json.hpp`, such as `type_error.302`. -/
def jsonException (name what_arg : Bytes) : Exception :=
  exception .stdException (ascii "[json.exception." ++ name ++ ascii "] " ++ what_arg)

/-- A syntax error found by the lexer or the parser. Of the body it quotes one token, between
text of its own. -/
structure ParseError where
  head : Bytes
  token : Bytes
  tail : Bytes
  head_text : isText head = true
  tail_text : isText tail = true

/-- `get_token_string`: control characters are written out, other bytes are copied as they are. -/
def escapeControl (b : UInt8) : Bytes :=
  if b.toNat ≤ 0x1F then
    ascii "<U+00" ++ [ascii "0123456789ABCDEF" |>.getD (b.toNat / 16) 0,
      ascii "0123456789ABCDEF" |>.getD (b.toNat % 16) 0] ++ ascii ">"
  else [b]

def getTokenString (token : Bytes) : Bytes := token.flatMap escapeControl

def ParseError.exception (e : ParseError) : Exception :=
  OnnxruntimeServer.exception .stdException (e.head ++ getTokenString e.token ++ e.tail)

theorem isText_what (h : isText what_arg = true) (kind : ErrorKind) :
    isText (exception kind what_arg).what = true := by
  rw [exception, cString_text h, h]

theorem isText_jsonException (hn : isText name = true) (hw : isText what_arg = true) :
    isText (jsonException name what_arg).what = true := by
  apply isText_what
  rw [isText_append, isText_append, isText_append, hn, hw]
  decide

theorem bind_eq_error {x : Except ε α} {f : α → Except ε β} :
    x >>= f = .error e ↔ x = .error e ∨ ∃ a, x = .ok a ∧ f a = .error e := by
  cases x with
  | error e' => simp [bind, Except.bind]
  | ok a => simp [bind, Except.bind]

theorem bind_eq_ok {x : Except ε α} {f : α → Except ε β} :
    x >>= f = .ok b ↔ ∃ a, x = .ok a ∧ f a = .ok b := by
  cases x with
  | error e => simp [bind, Except.bind]
  | ok a => simp [bind, Except.bind]

theorem ErrorKind.type_text (kind : ErrorKind) : isText kind.type = true := by
  cases kind <;> decide

theorem isText_escapeControl : ∀ n : Fin 32, isText (escapeControl (UInt8.ofNat n)) = true := by
  decide

theorem decodeAll_escapeControl (state : Nat) (b : UInt8) (rest : Bytes) :
    decodeAll state (escapeControl b ++ rest) = some UTF8_ACCEPT ↔
      decodeAll state (b :: rest) = some UTF8_ACCEPT := by
  by_cases hb : b.toNat ≤ 0x1F
  · have hs : isText (escapeControl b) = true := by
      simpa using isText_escapeControl ⟨b.toNat, by omega⟩
    have hc : ∃ c cs, escapeControl b = c :: cs := by
      rw [escapeControl, if_pos hb]
      exact ⟨_, _, rfl⟩
    obtain ⟨c, cs, hc⟩ := hc
    rw [hc] at hs ⊢
    obtain ⟨hct, hcs⟩ := isText_cons.1 hs
    rw [List.cons_append, decodeAll, decodeAll, decode_ascii _ hct.2,
      decode_ascii (b := b) _ (by omega)]
    by_cases hst : state = UTF8_ACCEPT
    · subst hst
      rw [if_pos rfl, if_neg (by decide), if_neg (by decide), decodeAll_append,
        decodeAll_text hcs]
      rfl
    · rw [if_neg hst, if_pos rfl, if_pos rfl]
  · rw [escapeControl, if_neg hb]
    rfl

theorem validUtf8_getTokenString (token : Bytes) :
    validUtf8 (getTokenString token) = validUtf8 token := by
  have h : ∀ state, decodeAll state (getTokenString token) = some UTF8_ACCEPT ↔
      decodeAll state token = some UTF8_ACCEPT := by
    induction token with
    | nil => exact fun _ => Iff.rfl
    | cons b token ih =>
      intro state
      rw [getTokenString, List.flatMap_cons, decodeAll_escapeControl, decodeAll, decodeAll]
      split_ifs with hd
      · exact Iff.rfl
      · exact ih _
  rw [Bool.eq_iff_iff]
  simpa only [validUtf8, beq_iff_eq] using h UTF8_ACCEPT

theorem cString_getTokenString_append (token rest : Bytes) :
    cString (getTokenString token ++ rest) = getTokenString token ++ cString rest := by
  induction token with
  | nil => rfl
  | cons b token ih =>
    rw [getTokenString, List.flatMap_cons, List.append_assoc, List.append_assoc]
    by_cases hb : b.toNat ≤ 0x1F
    · rw [cString_text_append (by simpa using isText_escapeControl ⟨b.toNat, by omega⟩)]
      exact congrArg (escapeControl b ++ ·) ih
    · rw [escapeControl, if_neg hb, List.singleton_append, cString,
        List.takeWhile_cons_of_pos (by simp; omega)]
      exact congrArg (b :: ·) ih

theorem ParseError.exception_what (e : ParseError) :
    e.exception.what = e.head ++ getTokenString e.token ++ e.tail := by
  rw [ParseError.exception, OnnxruntimeServer.exception, List.append_assoc,
    cString_text_append e.head_text, cString_getTokenString_append, cString_text e.tail_text]

/-- A parse error can be serialised exactly when the bytes of its token form whole characters. -/
theorem ParseError.validUtf8_what (e : ParseError) :
    validUtf8 e.exception.what = validUtf8 e.token := by
  rw [e.exception_what, validUtf8_quote e.head_text e.tail_text, validUtf8_getTokenString]

end OnnxruntimeServer
