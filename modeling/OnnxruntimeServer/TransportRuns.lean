import OnnxruntimeServer.ExecutionCount
import OnnxruntimeServer.JsonRoundTrip
import OnnxruntimeServer.TcpConversation
import OnnxruntimeServer.SessionRoutes

namespace OnnxruntimeServer
set_option autoImplicit true

/-- What a client can ask of either transport. -/
inductive Operation where
  | create (key : SessionKey) (option : Json) (object : option.isObject = true)
  | execute (key : SessionKey) (data : Json) (object : data.isObject = true)
  | get (key : SessionKey)
  | destroy (key : SessionKey)
  | list

namespace Operation

def task : Operation → Task
  | create key option _ => .createSession key.model_name key.model_version option none
  | execute key data _ => .executeSession key.model_name key.model_version data
  | get key => .getSession key.model_name key.model_version
  | destroy key => .destroySession key.model_name key.model_version
  | list => .listSession

def type : Operation → Int16
  | create _ _ _ => Task.CREATE_SESSION
  | execute _ _ _ => Task.EXECUTE_SESSION
  | get _ => Task.GET_SESSION
  | destroy _ => Task.DESTROY_SESSION
  | list => Task.LIST_SESSION

end Operation

/-- The members of a body that name the model. Any others do no harm. -/
structure Names (j : Json) (key : SessionKey) : Prop where
  model : j.find (ascii "model") = some (.string key.model_name)
  version : j.find (ascii "version") = some (.string key.model_version)

/-- The body of a request to create a session. An option that is missing is an empty object. -/
structure DescribesCreate (j : Json) (key : SessionKey) (option : Json) : Prop extends Names j key where
  option : (if (j.member (ascii "option")).isObject then j.member (ascii "option")
    else .object []) = option

/-- The body of a frame that asks for an operation. -/
def DescribesFrame (j : Json) : Operation → Prop
  | .create key option _ => DescribesCreate j key option
  | .execute key data _ => Names j key ∧ j.member (ascii "data") = data
  | .get key | .destroy key => Names j key
  | .list => True

/-- A request over one of the transports. -/
inductive Arrival where
  | tcp (frame : Frame)
  | http (req : HttpRequest)

/-- The ways to ask for an operation. Over HTTP a session can only be reached when its version has
no slash. -/
inductive Asks (lib : JsonLibrary) : Operation → Arrival → Prop where
  | tcp : frame.header.type = op.type → frame.post = [] → frame.body lib = .ok j →
    DescribesFrame j op → Asks lib op (.tcp frame)
  | httpCreate : req.method = .post → req.target = ascii "/api/sessions" →
    parseRequestJson lib req.body = .ok j → DescribesCreate j key option →
    Asks lib (.create key option object) (.http req)
  | httpExecute : req.method = .post → req.target = key.target → 0x2F ∉ key.model_version →
    parseRequestJson lib req.body = .ok data → Asks lib (.execute key data object) (.http req)
  | httpGet : req.method = .get → req.target = key.target → 0x2F ∉ key.model_version →
    Asks lib (.get key) (.http req)
  | httpDestroy : req.method = .delete → req.target = key.target → 0x2F ∉ key.model_version →
    Asks lib (.destroy key) (.http req)
  | httpList : req.method = .get → req.target = ascii "/api/sessions" → Asks lib .list (.http req)

/-- What a client makes of a response: whether it is a result, and its text. -/
structure Answer where
  result : Bool
  text : Bytes
  deriving DecidableEq

/-- The answer to an operation, and the manager after it. -/
def Operation.answer (services : Services M) (manager : M) (op : Operation) :
    Except Exception Answer × M :=
  let (manager, result) := services.run manager op.task
  match result.bind (Json.dump services.json.dumpFloat) with
  | .ok text => (.ok ⟨true, text⟩, manager)
  | .error e => ((whatToJson e.kind.type e.what).map (Answer.mk false), manager)

/-- The answer to a request: over TCP the type tells a result from an error, and over HTTP the
status. -/
def Arrival.answer (services : HttpServices M) (session : HttpSession) (manager : M) :
    Arrival → Except Exception Answer × M
  | tcp frame =>
    let (reply, manager) := frame.reply services.toServices manager []
    (reply.map fun r => ⟨r.type ≠ -1, r.text⟩, manager)
  | http req =>
    let (res, manager, _) := session.handleRequest services manager req
    (res.map fun r => ⟨r.result = 200, r.body⟩, manager)

/-- The answers to requests that are handled one after the other. -/
def answers (answer : M → α → Except Exception Answer × M) :
    M → List α → List (Except Exception Answer) × M
  | manager, [] => ([], manager)
  | manager, a :: as =>
    let (first, manager) := answer manager a
    let (rest, manager) := answers answer manager as
    (first :: rest, manager)

variable {lib : JsonLibrary} {op : Operation} {frame : Frame} {req : HttpRequest} {key : SessionKey}

theorem Operation.type_ne (op : Operation) : op.type ≠ -1 := by
  cases op <;> rw [type] <;> decide

theorem sessionTask_names (h : Names j key) :
    sessionTask j = .ok (key.model_name, key.model_version) := by
  rw [sessionTask, h.model, h.version]

theorem createSession_describes (h : DescribesCreate j key option) (post : Option Bytes) :
    createSession j post = .ok (.createSession key.model_name key.model_version option post) := by
  rw [createSession, sessionTask_names h.toNames]
  exact congrArg (fun option => Except.ok (Task.createSession _ _ option post)) h.option

theorem createTask_describes (h : DescribesFrame j op) : createTask op.type j none = .ok op.task := by
  cases op with
  | create key option object => exact createSession_describes h none
  | execute key data object =>
    obtain ⟨hnames, hdata⟩ := h
    change executeSession j = _
    rw [executeSession, sessionTask_names hnames]
    change (if (j.member (ascii "data")).isObject then _ else _) = _
    rw [hdata, if_pos object]
    rfl
  | get key =>
    change getSession j = _
    rw [getSession, sessionTask_names h]
    rfl
  | destroy key =>
    change destroySession j = _
    rw [destroySession, sessionTask_names h]
    rfl
  | list => rfl

theorem task_of_describes (htype : frame.header.type = op.type) (hpost : frame.post = [])
    (hbody : frame.body lib = .ok j) (hj : DescribesFrame j op) (path : Bytes) :
    frame.task lib path = .ok op.task := by
  have huploads : frame.uploads = false := by
    rw [Frame.uploads, hpost]
    simp
  rw [Frame.task, hbody, huploads, hpost, htype]
  exact createTask_describes hj

/-- However it is asked for, an operation is the same task. -/
theorem Asks.task_tcp (h : Asks lib op (.tcp frame)) (path : Bytes) :
    frame.task lib path = .ok op.task := by
  cases h with
  | tcp htype hpost hbody hj => exact task_of_describes htype hpost hbody hj path

theorem Asks.task_http (h : Asks lib op (.http req)) : req.task lib = some (.ok op.task) := by
  cases h with
  | httpCreate hmethod htarget hparse hj =>
    simp only [HttpRequest.task, hmethod, htarget, if_pos, hparse]
    exact congrArg some (createSession_describes hj none)
  | httpExecute hmethod htarget hslash hparse =>
    simp only [HttpRequest.task, hmethod, htarget, SessionKey.sessionTarget_target, if_neg hslash,
      hparse]
    rfl
  | httpGet hmethod htarget hslash =>
    simp only [HttpRequest.task, hmethod, htarget, SessionKey.sessionTarget_target, if_neg hslash]
    rfl
  | httpDestroy hmethod htarget hslash =>
    simp only [HttpRequest.task, hmethod, htarget, SessionKey.sessionTarget_target, if_neg hslash]
    rfl
  | httpList hmethod htarget =>
    simp only [HttpRequest.task, hmethod, htarget, if_pos]
    rfl

theorem ErrorKind.statusCode_ne (kind : ErrorKind) : kind.statusCode ≠ 200 := by
  cases kind <;> decide

theorem Asks.answer_tcp (h : Asks lib op (.tcp frame)) (services : HttpServices M)
    (hl : services.json = lib) (session : HttpSession) (manager : M) :
    Arrival.answer services session manager (.tcp frame) = op.answer services.toServices manager := by
  have htype : frame.header.type ≠ -1 := by
    cases h with
    | tcp htype _ _ _ =>
      rw [htype]
      exact op.type_ne
  have htask := h.task_tcp []
  rw [← hl] at htask
  rw [Arrival.answer, Operation.answer, Frame.reply, htask]
  simp only [Services.handle]
  cases (services.run manager op.task).2.bind (Json.dump services.json.dumpFloat) with
  | ok text => simp [Except.map, htype]
  | error e =>
    dsimp only
    cases whatToJson e.kind.type e.what <;> rfl

theorem Asks.answer_http (h : Asks lib op (.http req)) (services : HttpServices M)
    (hl : services.json = lib) {session : HttpSession} (hp : session.PeerKnown) (manager : M) :
    Arrival.answer services session manager (.http req) = op.answer services.toServices manager := by
  have htask := h.task_http
  rw [← hl] at htask
  obtain ⟨session', hpeer⟩ := HttpSession.peerKnown_iff.1 hp
  rw [Arrival.answer, Operation.answer, HttpSession.handleRequest, HttpRequest.answer, htask]
  rcases hrun : services.run manager op.task with ⟨manager', e | result⟩
  · simp only [hrun, hpeer, Except.bind]
    cases whatToJson e.kind.type e.what with
    | error e' => rfl
    | ok text => simp [Except.map, bind, Except.bind, HttpRequest.simpleResponse, e.kind.statusCode_ne]
  · simp only [hrun, Except.bind]
    cases result.dump services.json.dumpFloat with
    | ok text => rfl
    | error e =>
      simp only [bind, Except.bind, hpeer]
      cases whatToJson e.kind.type e.what with
      | error e' => rfl
      | ok text => simp [Except.map, HttpRequest.simpleResponse, e.kind.statusCode_ne]

/-- The transports cannot be told apart: whichever is used for each of a run of operations, the
answers are the ones of the operations, and so is the state they leave. -/
theorem answers_of_asks (services : HttpServices M) {session : HttpSession}
    (hp : session.PeerKnown) (manager : M)
    (h : List.Forall₂ (Asks services.json) ops arrivals) :
    answers (Arrival.answer services session) manager arrivals =
      answers (Operation.answer services.toServices) manager ops := by
  induction h generalizing manager with
  | nil => rfl
  | @cons op arrival ops arrivals hop _ ih =>
    rw [answers, answers]
    have hfirst : Arrival.answer services session manager arrival =
        op.answer services.toServices manager := by
      cases arrival with
      | tcp frame => exact hop.answer_tcp services rfl session manager
      | http req => exact hop.answer_http services rfl hp manager
    simp only [hfirst, ih]

def getFrame : Frame := ⟨⟨Task.GET_SESSION, 27, 27, 0⟩, Json.namesBody, []⟩

def destroyRequest : HttpRequest := ⟨.delete, Session.exampleKey.target, 11, true, []⟩

def knownPeer : HttpSession := ⟨[], fun _ => true, 0, .ok (ascii "peer"), [], 1024, []⟩

theorem asks_getFrame (strtod : Bytes → Double) (to_chars : Double → Bytes) :
    Asks (Json.library strtod to_chars) (.get Session.exampleKey) (.tcp getFrame) := by
  have hbody : getFrame.body (Json.library strtod to_chars) = .ok Json.namesJson :=
    Json.parse_namesBody strtod to_chars
  exact .tcp rfl rfl hbody ⟨rfl, rfl⟩

theorem asks_destroyRequest (lib : JsonLibrary) :
    Asks lib (.destroy Session.exampleKey) (.http destroyRequest) := .httpDestroy rfl rfl (by decide)

theorem answers_of_asks_getThenDestroy :
    answers (Arrival.answer
        (Manager.httpServices Json.plainLib ⟨[], [], []⟩ [] exampleRuntime) knownPeer)
        exampleManager [.tcp getFrame, .http destroyRequest] =
      answers (Operation.answer
        (Manager.httpServices Json.plainLib ⟨[], [], []⟩ [] exampleRuntime).toServices)
        exampleManager [.get Session.exampleKey, .destroy Session.exampleKey] :=
  answers_of_asks _ (.inr ⟨_, rfl⟩) exampleManager
    (.cons (asks_getFrame _ _) (.cons (asks_destroyRequest _) .nil))

end OnnxruntimeServer
