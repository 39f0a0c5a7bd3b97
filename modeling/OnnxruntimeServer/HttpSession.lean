import OnnxruntimeServer.Task

namespace OnnxruntimeServer
set_option autoImplicit true

inductive Verb where
  | get
  | post
  | delete
  | other
  deriving DecidableEq

/-- What the handler uses of a request. -/
structure HttpRequest where
  method : Verb
  target : Bytes
  version : Nat
  keep_alive : Bool
  body : Bytes

structure HttpResponse where
  result : Nat
  version : Nat
  content_type : Bytes
  location : Option Bytes
  keep_alive : Bool
  body : Bytes

structure SwaggerServe where
  swagger_url_path : Bytes
  openapi_yaml : Bytes
  index_html : Bytes

namespace SwaggerServe

def isSwaggerUrl (swagger : SwaggerServe) (url : Bytes) : Bool :=
  !swagger.swagger_url_path.isEmpty && swagger.swagger_url_path.isPrefixOf url

/-- The comparison of `rfind` with `length() - 13`. For shorter texts the difference wraps around, to
`npos` when it lacks one byte. -/
def endsWithOpenapi (url : Bytes) : Bool :=
  if 13 ≤ url.length then (ascii "/openapi.yaml").isSuffixOf url else url.length = 12

def getResponse (swagger : SwaggerServe) (url : Bytes) (http_version : Nat) : HttpResponse :=
  if endsWithOpenapi url then
    ⟨200, http_version, ascii "text/yaml", none, true, cString swagger.openapi_yaml⟩
  else if url = swagger.swagger_url_path ∨ url = swagger.swagger_url_path ++ ascii "/" then
    if url.getLast? ≠ some 0x2F then
      ⟨302, http_version, ascii "text/plain", some (url ++ ascii "/"), true, ascii "Not Found"⟩
    else ⟨200, http_version, ascii "text/html", none, true, cString swagger.index_html⟩
  else ⟨404, http_version, ascii "text/plain", none, true, ascii "Not Found"⟩

end SwaggerServe

def CONTENT_TYPE_PLAIN_TEXT : Bytes := ascii "text/plain"
def CONTENT_TYPE_JSON : Bytes := ascii "application/json"

/-- What the HTTP handler has besides the services: the pages, and ONNX Runtime's version text. -/
structure HttpServices (M : Type) extends Services M where
  swagger : SwaggerServe
  version : Bytes

/-- A match of `/api/sessions/([^/]+)/([^/]+)` with its two groups. -/
def sessionTarget (target : Bytes) : Option (Bytes × Bytes) :=
  if (ascii "/api/sessions/").isPrefixOf target then
    let rest := target.drop (ascii "/api/sessions/").length
    let model := rest.takeWhile (· ≠ 0x2F)
    let version := (rest.dropWhile (· ≠ 0x2F)).tail
    if model ≠ [] ∧ version ≠ [] ∧ 0x2F ∉ version then some (model, version) else none
  else none

theorem sessionTarget_append {model : Bytes} (hm : ∀ c ∈ model, c ≠ 0x2F) (version : Bytes) :
    sessionTarget (ascii "/api/sessions/" ++ model ++ ascii "/" ++ version) =
      if model ≠ [] ∧ version ≠ [] ∧ 0x2F ∉ version then some (model, version) else none := by
  have hpos : ∀ c ∈ model, decide (c ≠ 0x2F) = true := fun c hc => decide_eq_true (hm c hc)
  have hsplit : ascii "/api/sessions/" ++ model ++ ascii "/" ++ version =
      ascii "/api/sessions/" ++ (model ++ 0x2F :: version) := by
    rw [List.append_assoc, List.append_assoc]
    rfl
  have hpre : (ascii "/api/sessions/").isPrefixOf
      (ascii "/api/sessions/" ++ (model ++ 0x2F :: version)) = true := by
    rw [List.isPrefixOf_iff_prefix]
    exact List.prefix_append _ _
  have htake : (model ++ 0x2F :: version).takeWhile (· ≠ 0x2F) = model := by
    rw [List.takeWhile_append_of_pos hpos, List.takeWhile_cons_of_neg (by simp), List.append_nil]
  have hdrop : (model ++ 0x2F :: version).dropWhile (· ≠ 0x2F) = 0x2F :: version := by
    rw [List.dropWhile_append_of_pos hpos, List.dropWhile_cons_of_neg (by simp)]
  rw [hsplit, sessionTarget, if_pos hpre, List.drop_left]
  simp only [htake, hdrop, List.tail_cons]

namespace HttpRequest

def simpleResponse (req : HttpRequest) (status : Nat) (content_type body : Bytes) : HttpResponse :=
  ⟨status, req.version, content_type, none, req.keep_alive, body⟩

/-- The task that a request asks for, or the exception of making it. -/
def task (lib : JsonLibrary) (req : HttpRequest) : Option (Except Exception Task) :=
  match req.method, sessionTarget req.target with
  | .post, some (model, version) => some do
    let data ← parseRequestJson lib req.body
    .ok (.executeSession model version data)
  | .get, some (model, version) => some (.ok (.getSession model version))
  | .delete, some (model, version) => some (.ok (.destroySession model version))
  | method, _ =>
    if req.target = ascii "/api/sessions" then
      match method with
      | .get => some (.ok .listSession)
      | .post => some do
        let request_json ← parseRequestJson lib req.body
        createSession request_json none
      | _ => none
    else none

/-- The answer to a request for which there is no task. -/
def page (services : HttpServices M) (req : HttpRequest) : HttpResponse :=
  if req.target = ascii "/api/version" ∧ req.method = .get then
    req.simpleResponse 200 CONTENT_TYPE_PLAIN_TEXT services.version
  else if req.target = ascii "/health" then
    req.simpleResponse 200 CONTENT_TYPE_PLAIN_TEXT (ascii "OK")
  else if services.swagger.isSwaggerUrl req.target then
    { services.swagger.getResponse req.target req.version with keep_alive := req.keep_alive }
  else req.simpleResponse 404 CONTENT_TYPE_PLAIN_TEXT (ascii "Not Found")

/-- The `try` block of `handle_request`. -/
def answer (services : HttpServices M) (manager : M) (req : HttpRequest) :
    Except Exception HttpResponse × M :=
  match req.task services.json with
  | none => (.ok (req.page services), manager)
  | some (.error e) => (.error e, manager)
  | some (.ok task) =>
    match services.run manager task with
    | (manager, .error e) => (.error e, manager)
    | (manager, .ok result) =>
      (do
        let text ← result.dump services.json.dumpFloat
        .ok (req.simpleResponse 200 CONTENT_TYPE_JSON text), manager)

end HttpRequest

/-- What the request parser makes of the bytes it has been given. -/
inductive Framing where
  | needMore
  | done (n : Nat)
  | failed

/-- The HTTP library: how far a message at the front of some bytes reaches, under a limit for its
body, and the request that a message is. -/
structure Beast where
  frame : Nat → Bytes → Framing
  request : Bytes → HttpRequest

inductive ReadError where
  | endOfStream
  | other
  deriving DecidableEq

/-- An empty buffer is not given to the parser. -/
def Beast.parse (beast : Beast) (body_limit : Nat) (buffer : Bytes) : Framing :=
  if buffer.isEmpty then .needMore else beast.frame body_limit buffer

/-- `http::read`: bytes that are there already are parsed before more are received. A message is
taken from the front of the buffer, and what follows it stays. -/
def Beast.read (beast : Beast) (body_limit : Nat) (buffer : Bytes) (chunks : List Bytes) :
    Except ReadError Bytes × Bytes × List Bytes :=
  match beast.parse body_limit buffer, chunks with
  | .done n, chunks => (.ok (buffer.take n), buffer.drop n, chunks)
  | .failed, chunks => (.error .other, buffer, chunks)
  | .needMore, [] => (.error (if buffer.isEmpty then .endOfStream else .other), buffer, [])
  | .needMore, chunk :: chunks =>
    if chunk.isEmpty then (.error .other, buffer, chunks)
    else beast.read body_limit (buffer ++ chunk) chunks
termination_by structural chunks

/-- `http_session_base` with its stream. An empty chunk is a read that fails, and `fate k` says
whether the `k`-th write succeeds. -/
structure HttpSession where
  stream : List Bytes
  fate : Nat → Bool
  written : Nat
  peer : Except Bytes Bytes
  remote_endpoint : Bytes
  body_limit : Nat
  buffer : Bytes

namespace HttpSession

/-- `get_remote_endpoint` of either session, of whose text only the log makes use. -/
def getRemoteEndpoint (session : HttpSession) : Except Exception HttpSession :=
  if session.remote_endpoint ≠ [] then .ok session
  else match session.peer with
    | .error what => .error (exception .stdException what)
    | .ok peer => .ok { session with remote_endpoint := peer }

def doRead (beast : Beast) (session : HttpSession) : Except ReadError Bytes × HttpSession :=
  let session := { session with buffer := [] }
  let (message, buffer, stream) := beast.read session.body_limit session.buffer session.stream
  (message, { session with buffer, stream })

/-- `https_session::do_read`, which differs in the type of its stream only. -/
def httpsDoRead (beast : Beast) (session : HttpSession) : Except ReadError Bytes × HttpSession :=
  doRead beast session

def doWrite (session : HttpSession) : Bool × HttpSession :=
  (session.fate session.written, { session with written := session.written + 1 })

/-- `handle_request`. An exception in a `catch` block leaves it. -/
def handleRequest (services : HttpServices M) (manager : M) (req : HttpRequest)
    (session : HttpSession) : Except Exception HttpResponse × M × HttpSession :=
  match req.answer services manager with
  | (.ok res, manager) => (.ok res, manager, session)
  | (.error e, manager) =>
    match session.getRemoteEndpoint with
    | .error e => (.error e, manager, session)
    | .ok session =>
      (do
        let text ← whatToJson e.kind.type e.what
        .ok (req.simpleResponse e.kind.statusCode CONTENT_TYPE_JSON text), manager, session)

end HttpSession

structure Exchange where
  message : Bytes
  res : HttpResponse

namespace HttpSession

/-- `run`, for at most `fuel` requests: the exchanges it makes, and the exception that leaves it, if
one does. The sessions with and without encryption have a `do_read` each. -/
def run (services : HttpServices M) (beast : Beast) (secure : Bool) :
    Nat → M → HttpSession → List Exchange × Option Exception
  | 0, _, _ => ([], none)
  | fuel + 1, manager, session =>
    match if secure then httpsDoRead beast session else doRead beast session with
    | (.error .endOfStream, _) => ([], none)
    | (.error .other, session) =>
      match session.getRemoteEndpoint with
      | .error e => ([], some e)
      | .ok _ => ([], none)
    | (.ok message, session) =>
      match session.handleRequest services manager (beast.request message) with
      | (.error e, _, _) => ([], some e)
      | (.ok res, manager, session) =>
        match session.getRemoteEndpoint with
        | .error e => ([], some e)
        | .ok session =>
          match session.doWrite with
          | (false, _) => ([], none)
          | (true, session) =>
            if (beast.request message).keep_alive then
              let rest := run services beast secure fuel manager session
              (⟨message, res⟩ :: rest.1, rest.2)
            else ([⟨message, res⟩], none)

end HttpSession
end OnnxruntimeServer
