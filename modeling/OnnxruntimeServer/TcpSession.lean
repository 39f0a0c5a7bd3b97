import OnnxruntimeServer.Socket
import OnnxruntimeServer.ProtocolHeader
import OnnxruntimeServer.Task

namespace OnnxruntimeServer
set_option autoImplicit true

/-- `unique_upload_filename`, given what `dist` draws. -/
def uniqueUploadFilename (dist : Nat → Fin 16) : Bytes :=
  ascii "onnxruntime-server-upload-" ++
    ((List.range 4).flatMap fun group => (if group = 0 then [] else ascii "-") ++
      (List.range 4).map fun i => (ascii "0123456789abcdef").getD (dist (4 * group + i)) 0) ++
    ascii ".onnx"

/-- What the system decides about one upload file: the digits of its name, the temporary directory,
whether it can be opened, and how many bytes it takes before writing fails, if it ever does. -/
structure UploadFate where
  dist : Nat → Fin 16
  temp_directory_path : Except Bytes Bytes
  opens : Bool
  room : Option Nat

/-- The file system as far as the uploads go. `fate k` is about the `k`-th name that is made up. -/
structure Disk where
  files : List (Bytes × Bytes)
  made : Nat
  fate : Nat → UploadFate

def Disk.remove (path : Bytes) (disk : Disk) : Disk :=
  { disk with files := disk.files.filter fun f => f.1 ≠ path }

def Disk.store (path content : Bytes) (disk : Disk) : Disk :=
  { disk with files := (disk.remove path).files ++ [(path, content)] }

/-- `dir / name`, for a name that is a single component. -/
def joinPath (dir name : Bytes) : Bytes :=
  if dir = [] ∨ dir.getLast? = some 0x2F then dir ++ name else dir ++ ascii "/" ++ name

structure TcpSession where
  socket : Socket
  request_payload_limit : Int64
  model_upload_limit : Int64
  model_upload_dir : Bytes
  buffer : Bytes
  uploaded_model_path : Bytes
  remote_endpoint : Bytes
  disk : Disk

namespace TcpSession

def cleanupUpload (session : TcpSession) : TcpSession :=
  if session.uploaded_model_path = [] then session
  else { session with
    disk := session.disk.remove session.uploaded_model_path
    uploaded_model_path := [] }

/-- `get_remote_endpoint`, of whose text only the log makes use. It throws when the socket has lost
its peer before the first call. -/
def getRemoteEndpoint (session : TcpSession) : Except Exception TcpSession :=
  if session.remote_endpoint ≠ [] then .ok session
  else match session.socket.peer with
    | .error what => .error (exception .stdException what)
    | .ok peer => .ok { session with remote_endpoint := peer }

/-- `do_write`: one `write_some`, which counts as done when it has sent anything. -/
def doWrite (header : ProtocolHeader) (buf : Bytes) (session : TcpSession) : Bool × TcpSession :=
  let (sent, socket) := session.socket.writeSome (header.memory ++ buf)
  (sent.any (0 < ·), { session with socket })

/-- The header of a response, in network order. The macro shifts the `int` of `HTONLL(0)` by 32 bits,
which is taken to give zero. -/
def resHeader (type : Int16) (size : Nat) : ProtocolHeader where
  type := (htons type.toUInt16).toInt16
  length := (HTONLL size.toUInt64).toInt64
  json_length := (HTONLL size.toUInt64).toInt64
  post_length := (HTONLL 0).toInt64

def sendError (type what : Bytes) (session : TcpSession) : Except Exception (Bool × TcpSession) := do
  let res_json ← whatToJson type what
  .ok (session.doWrite (resHeader (-1) res_json.length) res_json)

/-- Both places of `do_read` that answer before they give the connection up. -/
def refuse (type what : Bytes) (session : TcpSession) :
    Except Exception (Option ProtocolHeader) × TcpSession :=
  match session.getRemoteEndpoint with
  | .error e => (.error e, session)
  | .ok session =>
    match session.sendError type what with
    | .error e => (.error e, session)
    | .ok (_, session) => (.ok none, session)

def readHeader (session : TcpSession) : Option ProtocolHeader × TcpSession :=
  let (memory, socket) := session.socket.readSome ProtocolHeader.size
  let session := { session with socket }
  if memory.length < ProtocolHeader.size then (none, session)
  else (some (ProtocolHeader.ofMemory memory).toHost, session)

def postLimit (session : TcpSession) (header : ProtocolHeader) : Int64 :=
  if header.type = Task.CREATE_SESSION then session.model_upload_limit
  else session.request_payload_limit

def acceptsHeader (session : TcpSession) (header : ProtocolHeader) : Bool :=
  !(header.json_length < 0 || header.post_length < 0 ||
    session.request_payload_limit < header.json_length ||
    session.postLimit header < header.post_length ||
    header.length != header.json_length + header.post_length)

/-- `read_exact` with the buffer as its sink. -/
def readBuffer (length : Int64) (session : TcpSession) : Bool × TcpSession :=
  let r := readExact length.toInt.toNat session.socket
  (r.ok, { session with socket := r.socket, buffer := session.buffer ++ r.bytes })

/-- `read_exact` with a new upload file as its sink. -/
def readUpload (header : ProtocolHeader) (session : TcpSession) :
    Except Exception (Option ProtocolHeader) × TcpSession :=
  let fate := session.disk.fate session.disk.made
  match if session.model_upload_dir = [] then fate.temp_directory_path
      else .ok session.model_upload_dir with
  | .error what => (.error (exception .stdException what), session)
  | .ok dir =>
    let path := joinPath dir (uniqueUploadFilename fate.dist)
    let session := { session with
      uploaded_model_path := path
      disk := { session.disk with made := session.disk.made + 1 } }
    if !fate.opens then session.refuse (ascii "runtime_error") (ascii "cannot store uploaded model")
    else
      let r := readExact header.post_length.toInt.toNat session.socket
      let session := { session with
        socket := r.socket
        disk := session.disk.store path (r.bytes.take (fate.room.getD r.bytes.length)) }
      if !r.ok || fate.room.any (· < r.bytes.length) then (.ok none, session)
      else (.ok (some header), session)

def readPost (header : ProtocolHeader) (session : TcpSession) :
    Except Exception (Option ProtocolHeader) × TcpSession :=
  if header.type = Task.CREATE_SESSION ∧ 0 < header.post_length then session.readUpload header
  else if 0 < header.post_length then
    match session.readBuffer header.post_length with
    | (false, session) => (.ok none, session)
    | (true, session) => (.ok (some header), session)
  else (.ok (some header), session)

/-- `do_read` from its check of the header on. -/
def readBody (header : ProtocolHeader) (session : TcpSession) :
    Except Exception (Option ProtocolHeader) × TcpSession :=
  if !session.acceptsHeader header then
    session.refuse (ascii "bad_request_error") (ascii "invalid or oversized protocol header")
  else match session.readBuffer header.json_length with
    | (false, session) => (.ok none, session)
    | (true, session) => session.readPost header

def doRead (session : TcpSession) : Except Exception (Option ProtocolHeader) × TcpSession :=
  match readHeader (cleanupUpload { session with buffer := [] }) with
  | (none, session) => (.ok none, session)
  | (some header, session) => session.readBody header

def bodyJson (lib : JsonLibrary) (header : ProtocolHeader) (session : TcpSession) :
    Except Exception Json :=
  if 0 < header.json_length then
    parseRequestJson lib (session.buffer.take header.json_length.toInt.toNat)
  else .ok (.object [])

/-- `json["option"]["path"] = uploaded_model_path`. -/
def assignPath (json : Json) (session : TcpSession) : Except Exception Json := do
  let option ← (json.member (ascii "option")).assign (ascii "path")
    (.string session.uploaded_model_path)
  json.assign (ascii "option") option

def requestJson (lib : JsonLibrary) (header : ProtocolHeader) (session : TcpSession) :
    Except Exception Json := do
  let json ← session.bodyJson lib header
  if session.uploaded_model_path ≠ [] then
    session.assignPath (if json.isObject then json else .object [])
  else .ok json

def requestPost (header : ProtocolHeader) (session : TcpSession) : Option Bytes :=
  if session.uploaded_model_path ≠ [] then none
  else if 0 < header.post_length then
    some ((session.buffer.drop header.json_length.toInt.toNat).take header.post_length.toInt.toNat)
  else none

def requestTask (lib : JsonLibrary) (header : ProtocolHeader) (session : TcpSession) :
    Except Exception Task := do
  let json ← session.requestJson lib header
  createTask header.type json (session.requestPost header)

/-- The `try` block of `run` as far as the text of the response. -/
def answer (services : Services M) (manager : M) (header : ProtocolHeader) (session : TcpSession) :
    Except Exception Bytes × M × TcpSession :=
  match session.requestTask services.json header with
  | .error e => (.error e, manager, session)
  | .ok task =>
    match services.run manager task with
    | (manager, .error e) => (.error e, manager, session)
    | (manager, .ok result) =>
      match session.getRemoteEndpoint with
      | .error e => (.error e, manager, session)
      | .ok session => (result.dump services.json.dumpFloat, manager, session)

end TcpSession

/-- How a round of a session's loop ends: it goes on, it breaks, or an exception leaves it. -/
inductive Turn where
  | again
  | stop
  | escaped (e : Exception)
  deriving DecidableEq

namespace TcpSession

/-- A round of `run` after its `do_read`. -/
def serve (services : Services M) (manager : M) (header : ProtocolHeader) (session : TcpSession) :
    Turn × M × TcpSession :=
  match session.answer services manager header with
  | (.ok res_json, manager, session) =>
    match session.doWrite (resHeader header.type res_json.length) res_json with
    | (true, session) => (.again, manager, session)
    | (false, session) => (.stop, manager, session)
  | (.error e, manager, session) =>
    match session.getRemoteEndpoint with
    | .error e => (.escaped e, manager, session)
    | .ok session =>
      match session.sendError e.kind.type e.what with
      | .error e => (.escaped e, manager, session)
      | .ok (_, session) => (.again, manager, session)

def round (services : Services M) (manager : M) (session : TcpSession) : Turn × M × TcpSession :=
  match session.doRead with
  | (.error e, session) => (.escaped e, manager, session)
  | (.ok none, session) => (.stop, manager, session)
  | (.ok (some header), session) => session.serve services manager header

/-- Only a task changes the manager. -/
theorem answer_manager (services : Services M) (manager : M) (header : ProtocolHeader)
    (session : TcpSession) : (session.answer services manager header).2.1 =
      match session.requestTask services.json header with
      | .ok task => (services.run manager task).1
      | .error _ => manager := by
  rw [answer]
  cases session.requestTask services.json header with
  | error e => rfl
  | ok task =>
    rcases hr : services.run manager task with ⟨manager', e | result⟩
    · simp only [hr]
    · simp only [hr]
      cases session.getRemoteEndpoint <;> rfl

theorem socket_getRemoteEndpoint {session session' : TcpSession}
    (h : session.getRemoteEndpoint = .ok session') : session'.socket = session.socket := by
  rw [getRemoteEndpoint] at h
  split at h
  · rw [Except.ok.inj h]
  · split at h
    · cases h
    · rw [← Except.ok.inj h]

end TcpSession
end OnnxruntimeServer
