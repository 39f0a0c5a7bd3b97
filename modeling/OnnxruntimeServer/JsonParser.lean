import OnnxruntimeServer.JsonTokens

namespace OnnxruntimeServer
set_option autoImplicit true

def Double.isFinite : Double → Bool
  | .finite _ _ _ => true
  | _ => false

/-- What `exception_message` says is being parsed. -/
inductive ParseContext where
  | value
  | objectKey
  | objectSeparator
  | array
  | object

def ParseContext.text : ParseContext → Bytes
  | .value => ascii "value"
  | .objectKey => ascii "object key"
  | .objectSeparator => ascii "object separator"
  | .array => ascii "array"
  | .object => ascii "object"

abbrev Scanned := Token × Lexer

/-- `position_string`. -/
def Position.text (pos : Position) : Bytes :=
  ascii " at line " ++ ascii (toString (pos.lines_read + 1)) ++ ascii ", column " ++
    ascii (toString pos.chars_read_current_line)

namespace Scanned

/-- What an error message says before the text that it quotes. -/
def message (last : Scanned) : Bytes :=
  match last.1 with
  | .parseError e => e.text ++ ascii "; last read: '"
  | token => ascii "unexpected " ++ token.typeName

/-- The text that is quoted: all that was read since a string or a number last began. -/
def quoted (last : Scanned) : Bytes :=
  match last.1 with
  | .parseError _ => last.2.token_string
  | _ => []

def closing (last : Scanned) : Bytes :=
  match last.1 with
  | .parseError _ => ascii "'"
  | _ => []

theorem isText_message (last : Scanned) : isText last.message = true := by
  obtain ⟨token, lx⟩ := last
  cases token with
  | parseError e =>
    rw [message, isText_append, e.isText_text]
    rfl
  | _ => rfl

theorem isText_closing (last : Scanned) : isText last.closing = true := by
  obtain ⟨token, lx⟩ := last
  cases token <;> rfl

end Scanned

/-- What `exception_message` expects; an uninitialized token stands for nothing. -/
def Token.expectation : Token → Bytes
  | .uninitialized => []
  | expected => ascii "; expected " ++ expected.typeName

theorem isText_context (context : ParseContext) : isText context.text = true := by
  cases context <;> decide

theorem isText_position (pos : Position) : isText pos.text = true := by
  rw [Position.text, isText_append, isText_append, isText_append, isText_toString, isText_toString]
  decide

theorem isText_expectation (expected : Token) : isText expected.expectation = true := by
  cases expected <;> rfl

/-- `parse_error.101` at the last token, with `exception_message`. -/
def syntaxError (last : Scanned) (expected : Token) (context : ParseContext) : ParseError where
  head := ascii "[json.exception.parse_error.101] parse error" ++ last.2.position.text ++
    ascii ": syntax error while parsing " ++ context.text ++ ascii " - " ++ last.message
  token := last.quoted
  tail := last.closing ++ expected.expectation
  head_text := by
    simp only [isText_append, isText_position, isText_context, last.isText_message]
    decide
  tail_text := by
    simp only [isText_append, isText_expectation, last.isText_closing]
    decide

theorem isText_overflow :
    isText (ascii "[json.exception.out_of_range.406] number overflow parsing '") = true := by
  decide

theorem isText_quote : isText (ascii "'") = true := by
  decide

/-- `out_of_range.406`: a number that is no finite `double`. -/
def overflowError (last : Scanned) : ParseError where
  head := ascii "[json.exception.out_of_range.406] number overflow parsing '"
  token := last.2.token_string
  tail := ascii "'"
  head_text := isText_overflow
  tail_text := isText_quote

/-- The calls that the parser makes on its handler. -/
inductive SaxEvent where
  | startObject
  | key (name : Bytes)
  | endObject
  | startArray
  | endArray
  | value (j : Json)

/-- The calls made, and the error that ended them or the last token and those still to come. -/
abbrev Saxed := List SaxEvent × Except ParseError (Scanned × List Scanned)

def Saxed.after (events : List SaxEvent) (saxed : Saxed) : Saxed := (events ++ saxed.1, saxed.2)

mutual
/-- `sax_parse_internal` at a value. Of the `states`, true is an array and false an object. -/
def parseValue (states : List Bool) (last : Scanned) (tokens : List Scanned) : Saxed :=
  match tokens with
  | [] => ([], .error (syntaxError last .literalOrValue .value))
  | token :: tokens =>
    match token.1 with
    | .beginObject =>
      match tokens with
      | [] => ([.startObject], .error (syntaxError token (.valueString []) .objectKey))
      | next :: tokens' =>
        match next.1 with
        | .endObject => (stateEvaluation states next tokens').after [.startObject, .endObject]
        | _ => (parseKey states token (next :: tokens')).after [.startObject]
    | .beginArray =>
      match tokens with
      | [] => ([.startArray], .error (syntaxError token .literalOrValue .value))
      | next :: tokens' =>
        match next.1 with
        | .endArray => (stateEvaluation states next tokens').after [.startArray, .endArray]
        | _ => (parseValue (true :: states) token (next :: tokens')).after [.startArray]
    | .valueFloat x =>
      if x.isFinite then (stateEvaluation states token tokens).after [.value (.float x)]
      else ([], .error (overflowError token))
    | .literalFalse => (stateEvaluation states token tokens).after [.value (.boolean false)]
    | .literalNull => (stateEvaluation states token tokens).after [.value .null]
    | .literalTrue => (stateEvaluation states token tokens).after [.value (.boolean true)]
    | .valueInteger i => (stateEvaluation states token tokens).after [.value (.integer i)]
    | .valueString s => (stateEvaluation states token tokens).after [.value (.string s)]
    | .valueUnsigned n => (stateEvaluation states token tokens).after [.value (.unsigned n)]
    | .parseError _ => ([], .error (syntaxError token .uninitialized .value))
    | _ => ([], .error (syntaxError token .literalOrValue .value))
termination_by structural tokens

/-- A key and its separator, and then the value. -/
def parseKey (states : List Bool) (last : Scanned) (tokens : List Scanned) : Saxed :=
  match tokens with
  | [] => ([], .error (syntaxError last (.valueString []) .objectKey))
  | token :: tokens =>
    match token.1 with
    | .valueString name =>
      match tokens with
      | [] => ([.key name], .error (syntaxError token .nameSeparator .objectSeparator))
      | next :: tokens' =>
        match next.1 with
        | .nameSeparator => (parseValue (false :: states) next tokens').after [.key name]
        | _ => ([.key name], .error (syntaxError next .nameSeparator .objectSeparator))
    | _ => ([], .error (syntaxError token (.valueString []) .objectKey))
termination_by structural tokens

/-- `sax_parse_internal` after a value. -/
def stateEvaluation (states : List Bool) (last : Scanned) (tokens : List Scanned) : Saxed :=
  match states with
  | [] => ([], .ok (last, tokens))
  | true :: states =>
    match tokens with
    | [] => ([], .error (syntaxError last .endArray .array))
    | token :: tokens =>
      match token.1 with
      | .valueSeparator => parseValue (true :: states) token tokens
      | .endArray => (stateEvaluation states token tokens).after [.endArray]
      | _ => ([], .error (syntaxError token .endArray .array))
  | false :: states =>
    match tokens with
    | [] => ([], .error (syntaxError last .endObject .object))
    | token :: tokens =>
      match token.1 with
      | .valueSeparator => parseKey states token tokens
      | .endObject => (stateEvaluation states token tokens).after [.endObject]
      | _ => ([], .error (syntaxError token .endObject .object))
termination_by structural tokens
end

/-- A container that is still open, with the key that its next value goes to. -/
inductive OpenContainer where
  | array (items : List Json)
  | object (members : List (Bytes × Json)) (object_element : Bytes)

/-- `json_sax_dom_callback_parser` for a callback that keeps everything: its depths so far, and the
open containers from the innermost one. A container goes to its parent when it is closed. -/
structure DomParser where
  root : Json := .null
  ref_stack : List OpenContainer := []
  depths : List Int := []

namespace DomParser

def callback (dom : DomParser) (depth : Int) : DomParser :=
  { dom with depths := dom.depths ++ [depth] }

/-- `handle_value` without its callback. -/
def store (dom : DomParser) (j : Json) : DomParser :=
  match dom.ref_stack with
  | [] => { dom with root := j }
  | .array items :: ref_stack => { dom with ref_stack := .array (items ++ [j]) :: ref_stack }
  | .object members object_element :: ref_stack =>
    { dom with
      ref_stack := .object (Json.setMember object_element j members) object_element :: ref_stack }

def push (dom : DomParser) (frame : OpenContainer) : DomParser :=
  { dom with ref_stack := frame :: dom.ref_stack }

def setKey (dom : DomParser) (name : Bytes) : DomParser :=
  match dom.ref_stack with
  | .object members _ :: ref_stack => { dom with ref_stack := .object members name :: ref_stack }
  | _ => dom

def pop (dom : DomParser) : DomParser :=
  match dom.ref_stack with
  | [] => dom
  | .array items :: ref_stack => { dom with ref_stack := ref_stack }.store (.array items)
  | .object members _ :: ref_stack => { dom with ref_stack := ref_stack }.store (.object members)

def step (dom : DomParser) (event : SaxEvent) : DomParser :=
  match event with
  | .startObject => (dom.callback dom.ref_stack.length).push (.object [] [])
  | .key name => (dom.callback dom.ref_stack.length).setKey name
  | .endObject => (dom.callback ((dom.ref_stack.length : Int) - 1)).pop
  | .startArray => (dom.callback dom.ref_stack.length).push (.array [])
  | .endArray => (dom.callback ((dom.ref_stack.length : Int) - 1)).pop
  | .value j => (dom.callback dom.ref_stack.length).store j

end DomParser

namespace Json

/-- `parser::parse`, in strict mode: nothing but the end of the input follows the value. -/
def parse (strtod : Bytes → Double) (body : Bytes) : Parse :=
  let tokens := (Lexer.ofText body).tokens strtod
  let saxed := parseValue [] (.uninitialized, Lexer.ofText body) tokens
  let dom := saxed.1.foldl DomParser.step {}
  { depths := dom.depths
    result :=
      match saxed.2 with
      | .error e => .error e
      | .ok (last, []) => .error (syntaxError last .endOfInput .value)
      | .ok (_, next :: _) =>
        match next.1 with
        | .endOfInput => .ok dom.root
        | _ => .error (syntaxError next .endOfInput .value) }

/-- `dump_float`; `to_chars` prints the finite numbers. -/
def dumpNumber (to_chars : Double → Bytes) (x : Double) : Bytes :=
  if x.isFinite then to_chars x else ascii "null"

/-- `json.hpp` over the conversions between numbers and their texts. -/
def library (strtod : Bytes → Double) (to_chars : Double → Bytes) : JsonLibrary where
  parse := parse strtod
  dumpFloat := dumpNumber to_chars

end Json

end OnnxruntimeServer
