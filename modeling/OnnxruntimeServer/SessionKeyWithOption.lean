import OnnxruntimeServer.SessionManager
import OnnxruntimeServer.Lib.Regex
import OnnxruntimeServer.Lib.Squeeze

namespace OnnxruntimeServer
set_option autoImplicit true
open Regex Squeeze

/-- `\s`, in the C locale. -/
def isSpace (c : UInt8) : Bool := c == 0x20 || (0x09 ≤ c && c ≤ 0x0D)

def isDigit (c : UInt8) : Bool := 0x30 ≤ c && c ≤ 0x39

/-- `[-_a-zA-Z0-9]`. -/
def isNameChar (c : UInt8) : Bool := isAlnum c || c == 0x5F || c == 0x2D

/-- `[-_/a-zA-Z0-9]`. -/
def isVersionChar (c : UInt8) : Bool := isAlnum c || c == 0x5F || c == 0x2D || c == 0x2F

/-- `[_a-zA-Z0-9]`. -/
def isKeyStart (c : UInt8) : Bool := isAlnum c || c == 0x5F

/-- `[_a-zA-Z0-9.]`. -/
def isKeyChar (c : UInt8) : Bool := isKeyStart c || c == 0x2E

/-- `[^,\s]`. -/
def isValueChar (c : UInt8) : Bool := !(c == 0x2C || isSpace c)

/-- `std::regex_replace(s, space_re, " ")`: every run of spaces becomes one space. -/
def replaceSpaces (s : Bytes) : Bytes := squeeze isSpace 0x20 s

/-- `std::regex_replace(s, trim_re, "")`. -/
def trim (s : Bytes) : Bytes := strip isSpace s

def keyRe : Pattern UInt8 :=
  .seq (.group (.plus isNameChar)) (.seq (.one (· == 0x3A)) (.seq (.group (.plus isVersionChar))
    (.opt (.group (.seq (.one (· == 0x28)) (.seq (.group (.plus (· != 0x29)))
      (.one (· == 0x29))))))))

def optionRe : Pattern UInt8 :=
  .seq (.group (.word isKeyStart isKeyChar)) (.seq (.many isSpace) (.seq (.one (· == 0x3D))
    (.seq (.many isSpace) (.group (.plus isValueChar)))))

def intRe : Pattern UInt8 := .seq (.opt (.one (· == 0x2D))) (.plus isDigit)

def EXTENSIONS_KEY : Bytes := ascii "extensions"
def LEGACY_EXTENSION_KEY : Bytes := ascii "ortextensions_path"

def decimal (digits : Bytes) : Nat := digits.foldl (fun n c => 10 * n + (c.toNat - 0x30)) 0

/-- `std::stoll` of a text that starts with a digit or a minus. It throws without digits, and where
the number is not a `long long`. -/
def stoll (raw : Bytes) : Option Int64 :=
  let neg := raw.head? = some 0x2D
  let digits := (if neg then raw.tail else raw).takeWhile isDigit
  let n : Int := if neg then -decimal digits else decimal digits
  if digits ≠ [] ∧ -2 ^ 63 ≤ n ∧ n < 2 ^ 63 then some (.ofInt n) else none

def inferValue (raw : Bytes) : Json :=
  if raw = ascii "true" then .boolean true
  else if raw = ascii "false" then .boolean false
  else if (intRe.full raw).isSome then
    match stoll raw with
    | some i => .integer i
    | none => .string raw
  else .string raw

/-- `if (!cur.empty()) parts.push_back(cur)`. -/
def pushPart (parts : List Bytes) (cur : Bytes) : List Bytes :=
  if cur ≠ [] then parts ++ [cur] else parts

/-- The loop of `split_dot`. -/
def splitDotFrom (parts : List Bytes) (cur : Bytes) : Bytes → List Bytes
  | [] => pushPart parts cur
  | c :: k =>
    if c = 0x2E then splitDotFrom (pushPart parts cur) [] k else splitDotFrom parts (cur ++ [c]) k

def splitDot (k : Bytes) : List Bytes := splitDotFrom [] [] k

namespace Json

def members : Json → List (Bytes × Json)
  | .object members => members
  | _ => []

def getString : Json → Bytes
  | .string s => s
  | _ => []

/-- `if (!j.is_object()) j = json::object(); j[key] = value`. -/
def set (j : Json) (key : Bytes) (value : Json) : Json := .object (setMember key value j.members)

end Json

def setNested (option : Json) : List Bytes → Json → Json
  | [], _ => option
  | [key], value => option.set key value
  | key :: path, value =>
    option.set key (setNested (if (option.member key).isObject then option.member key
      else .object []) path value)

/-- The array that `append_extension` continues. -/
def extensionArray (option : Json) : List Json :=
  match option.find EXTENSIONS_KEY with
  | some (.array arr) => arr
  | _ => []

/-- `e.is_string() && e.get<std::string>() == path`. -/
def isPath (path : Bytes) : Json → Bool
  | .string s => s == path
  | _ => false

def appendExtension (option : Json) (path : Bytes) : Json :=
  if (extensionArray option).any (isPath path) then option
  else option.set EXTENSIONS_KEY (.array (extensionArray option ++ [.string path]))

/-- The body of the option loop. -/
def applyOption (option : Json) (raw_key raw_val : Bytes) : Json :=
  let value := inferValue raw_val
  let parts := splitDot raw_key
  if parts = [] then option
  else if (parts = [EXTENSIONS_KEY] ∨ parts = [LEGACY_EXTENSION_KEY]) ∧ value.isString then
    appendExtension option value.getString
  else setNested option parts value

/-- The assignments that the option loop finds. -/
def foundOptions (option_str : Bytes) : List (Bytes × Bytes) :=
  (optionRe.scan option_str).1.map fun options => (options.str 1, options.str 2)

def applyOptions (entries : List (Bytes × Bytes)) : Json :=
  entries.foldl (fun option e => applyOption option e.1 e.2) (.object [])

def parseOptions (option_str : Bytes) : Json := applyOptions (foundOptions option_str)

structure SessionKeyWithOption where
  key : SessionKey
  option : Json

namespace SessionKeyWithOption

/-- The constructor. -/
def make (model_name model_version : Bytes) (option : Json) :
    Except Exception SessionKeyWithOption := do
  let key ← sessionKey model_name model_version
  .ok ⟨key, option⟩

def normalizeList (model_key_list : Bytes) : Bytes := trim (replaceSpaces model_key_list)

/-- The body of the loop over the models. -/
def ofMatch (keys : Match UInt8) : Except Exception SessionKeyWithOption :=
  make (keys.str 1) (keys.str 2) (parseOptions (keys.str 4))

def parse (model_key_list : Bytes) : Except Exception (List SessionKeyWithOption) :=
  let list := normalizeList model_key_list
  if list = [] then .ok []
  else do
    let (found, rest) := keyRe.scan list
    let models ← found.mapM ofMatch
    if rest ≠ [] then
      .error (exception .runtimeError (ascii "Invalid model key list: " ++ model_key_list))
    else .ok models

end SessionKeyWithOption
end OnnxruntimeServer
