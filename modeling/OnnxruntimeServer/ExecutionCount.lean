import OnnxruntimeServer.ExecuteTransports
import OnnxruntimeServer.Reply

namespace OnnxruntimeServer
set_option autoImplicit true
open Transition

/-- A request that one of the transports has read and not answered yet. -/
inductive Request where
  | tcp (session : TcpSession) (header : ProtocolHeader)
  | http (req : HttpRequest)

namespace Request

def task (lib : JsonLibrary) : Request → Option (Except Exception Task)
  | tcp session header => some (session.requestTask lib header)
  | http req => req.task lib

/-- Whether the answer is a result, not an error, and the manager after it. -/
def answer (services : HttpServices M) (manager : M) : Request → Bool × M
  | tcp session header =>
    let (res_json, manager, _) := session.answer services.toServices manager header
    (res_json.isOk, manager)
  | http req =>
    let (res, manager) := req.answer services manager
    (res.isOk, manager)

/-- Over TCP the log wants the peer's address before a result is sent. -/
def PeerKnown : Request → Prop
  | tcp session _ => session.PeerKnown
  | http _ => True

/-- If the request is made a task, that task executes a session. -/
def Executing (lib : JsonLibrary) (req : Request) : Prop :=
  ∀ task, req.task lib = some (.ok task) →
    ∃ name version data, task = .executeSession name version data

end Request

/-- A request that has been handled: its task, whether that has run without an exception, and
whether the answer was a result. -/
structure Handled where
  task : Option (Except Exception Task)
  ran : Bool
  answered : Bool

/-- The number of executions of a key's session that were answered with a result, after one more
request. The creation of the session starts it over. -/
def countHandled (key : SessionKey) (n : Nat) (handled : Handled) : Nat :=
  match handled.task with
  | some (.ok (.createSession name version _ _)) =>
    if handled.ran ∧ name = key.model_name ∧ version = key.model_version then 0 else n
  | some (.ok (.executeSession name version _)) =>
    if handled.answered ∧ name = key.model_name ∧ version = key.model_version then n + 1 else n
  | _ => n

/-- The requests to execute a session that were answered with a result since it was created. -/
def executions (key : SessionKey) (handled : List Handled) : Nat :=
  handled.foldl (countHandled key) 0

structure History where
  manager : Manager
  handled : List Handled

def History.handle (services : HttpServices Manager) (req : Request) (history : History) :
    History :=
  let task := req.task services.json
  let ran := match task with
    | some (.ok task) => (services.run history.manager task).2.isOk
    | _ => false
  let (answered, manager) := req.answer services history.manager
  ⟨manager, history.handled ++ [⟨task, ran, answered⟩]⟩

/-- What follows the lookup of a session succeeds: the context takes the data, the pool takes the
call, ONNX Runtime runs it, and its tensors can be made JSON and that a text. -/
def Executes (lib : JsonLibrary) (rt : Runtime) (session : Session) (data : Json) (heap : Heap) :
    Prop :=
  ∃ ctx heap' tensors ctx' output text,
    ExecutionContext.new lib rt.createTensor session data heap = (.ok ctx, heap') ∧
    rt.enqueue = .ok () ∧ ctx.run rt.ort = some (.ok tensors, ctx') ∧
    ctx'.tensorsToJson tensors = .ok output ∧ output.dump lib.dumpFloat = .ok text

/-- Where the request is to execute a session that is there, nothing fails. -/
def Undisturbed (lib : JsonLibrary) (rt : Runtime) (manager : Manager) (req : Request) : Prop :=
  ∀ name version data key session, req.task lib = some (.ok (.executeSession name version data)) →
    sessionKey name version = .ok key → manager.sessions.find key = some session →
    Executes lib rt session data manager.heap ∧ req.PeerKnown

def Manager.httpServices (lib : JsonLibrary) (swagger : SwaggerServe) (version : Bytes)
    (rt : Runtime) : HttpServices Manager :=
  { Manager.services lib rt with swagger, version }

theorem Manager.httpServices_json : (httpServices lib swagger version rt).json = lib := rfl

theorem Manager.httpServices_run :
    (httpServices lib swagger version rt).run = Manager.run lib rt := rfl

def Step (lib : JsonLibrary) (swagger : SwaggerServe) (version : Bytes)
    (history history' : History) : Prop :=
  ∃ rt req, Undisturbed lib rt history.manager req ∧
    history' = history.handle (Manager.httpServices lib swagger version rt) req

/-- No request has been handled, and no session that is there has executed anything. -/
def Started (history : History) : Prop :=
  history.handled = [] ∧
    ∀ key session, history.manager.sessions.find key = some session → session.execution_count = 0

theorem sessionKey_ok : sessionKey name version = .ok key ↔
    name = key.model_name ∧ version = key.model_version := by
  constructor
  · intro h
    rw [sessionKey] at h
    split at h
    · split at h
      · obtain rfl := Except.ok.inj h
        exact ⟨rfl, rfl⟩
      · cases h
    · cases h
  · rintro ⟨rfl, rfl⟩
    rw [sessionKey, dif_pos key.valid_name, dif_pos key.valid_version]

theorem not_named_of_ne {key' : SessionKey} (hk : sessionKey name version = .ok key')
    (hne : key ≠ key') : ¬ (name = key.model_name ∧ version = key.model_version) := by
  intro hname
  rw [sessionKey_ok.2 hname] at hk
  exact hne (Except.ok.inj hk)

namespace Request
variable {req : Request} {task : Task}

theorem answer_manager (services : HttpServices M) (manager : M) (req : Request) :
    (req.answer services manager).2 = match req.task services.json with
      | some (.ok task) => (services.run manager task).1
      | _ => manager := by
  cases req with
  | tcp session header =>
    have hm := TcpSession.answer_manager services.toServices manager header session
    apply hm.trans
    rw [Request.task]
    cases session.requestTask services.json header <;> rfl
  | http req =>
    rw [answer, HttpRequest.answer, Request.task]
    rcases req.task services.json with _ | e | task
    · rfl
    · rfl
    · rcases hr : services.run manager task with ⟨manager', e | result⟩ <;> simp only [hr]

theorem answered_iff (services : HttpServices M) (manager : M)
    (h : req.task services.json = some (.ok task)) :
    (req.answer services manager).1 = true ↔ req.PeerKnown ∧
      ∃ result text, (services.run manager task).2 = .ok result ∧
        result.dump services.json.dumpFloat = .ok text := by
  cases req with
  | tcp session header =>
    have ht : session.requestTask services.json header = .ok task := Option.some.inj h
    rw [answer, TcpSession.answer, ht, PeerKnown]
    rcases hr : services.run manager task with ⟨manager', e | result⟩
    · simp [hr, Except.isOk, Except.toBool]
    · rw [TcpSession.peerKnown_iff]
      cases hg : session.getRemoteEndpoint with
      | error e => simp [hr, Except.isOk, Except.toBool]
      | ok session' =>
        cases hd : result.dump services.json.dumpFloat <;>
          simp [hr, hd, Except.isOk, Except.toBool]
  | http req =>
    have ht : req.task services.json = some (.ok task) := h
    rw [answer, HttpRequest.answer, ht, PeerKnown]
    rcases hr : services.run manager task with ⟨manager', e | result⟩
    · simp [hr, Except.isOk, Except.toBool]
    · cases hd : result.dump services.json.dumpFloat <;>
        simp [hr, hd, Except.isOk, Except.toBool, bind, Except.bind]

end Request

theorem execute_touch (lib : JsonLibrary) (rt : Runtime) (session : Session) (data : Json)
    (heap : Heap) :
    execute lib rt (session.touch now) data heap = execute lib rt session data heap := by
  rw [execute, execute, ExecutionContext.new, ExecutionContext.new]
  cases datasetOf lib data with
  | error e => rfl
  | ok dataset =>
    have hinputs : (session.touch now).inputs = session.inputs := rfl
    simp only [hinputs]
    rcases ExecutionContext.makeInputs rt.createTensor dataset session.inputs [] heap with
      ⟨e | inputs, heap'⟩
    · rfl
    · cases rt.enqueue with
      | error e => rfl
      | ok _ =>
        simp only [ExecutionContext.run, hinputs]
        cases ExecutionContext.takeTensors session.inputs inputs with
        | none => rfl
        | some taken =>
          have hrun : (session.touch now).run rt.ort taken.1 = session.run rt.ort taken.1 := rfl
          simp only [bind, Option.bind, hrun]
          cases session.run rt.ort taken.1 with
          | error e => rfl
          | ok tensors => rfl

theorem execute_of_executes (h : Executes lib rt session data heap) :
    ∃ output text heap', execute lib rt session data heap = (.ok output, heap') ∧
      output.dump lib.dumpFloat = .ok text := by
  obtain ⟨ctx, heap', tensors, ctx', output, text, hnew, hpool, hrun, hout, htext⟩ := h
  refine ⟨output, text, ctx'.delete heap', ?_, htext⟩
  simp only [execute, hnew, hpool, hrun, hout]

/-- A request to execute a session fails before the session is touched, or not at all. -/
theorem executeSession_cases {manager : Manager} {req : Request}
    (hu : Undisturbed lib rt manager req)
    (ht : req.task lib = some (.ok (.executeSession name version data))) :
    (∃ e, manager.executeSession lib rt name version data = (manager, .error e)) ∨
      ∃ key session output text heap, sessionKey name version = .ok key ∧
        manager.sessions.find key = some session ∧ req.PeerKnown ∧
        output.dump lib.dumpFloat = .ok text ∧
        manager.executeSession lib rt name version data =
          (⟨manager.sessions.modify key (Session.touch rt.now), heap⟩, .ok output) := by
  rw [Manager.executeSession]
  cases hk : sessionKey name version with
  | error e => exact .inl ⟨e, rfl⟩
  | ok key =>
    cases hf : manager.sessions.find key with
    | none => exact .inl ⟨notFoundError, by simp only [hf]⟩
    | some session =>
      obtain ⟨hx, hp⟩ := hu name version data key session ht hk hf
      obtain ⟨output, text, heap, hexec, htext⟩ := execute_of_executes hx
      refine .inr ⟨key, session, output, text, heap, rfl, hf, hp, htext, ?_⟩
      simp only [hf, execute_touch, hexec]

section
variable {lib : JsonLibrary} {rt : Runtime} {swagger : SwaggerServe} {version : Bytes}
  {manager : Manager} {req : Request} {history : History}

theorem sessions_of_unanswered (hu : Undisturbed lib rt manager req) (hx : req.Executing lib)
    (ha : (req.answer (Manager.httpServices lib swagger version rt) manager).1 = false) :
    (req.answer (Manager.httpServices lib swagger version rt) manager).2.sessions =
      manager.sessions := by
  rw [Request.answer_manager, Manager.httpServices_json]
  rcases ht : req.task lib with _ | e | task
  · rfl
  · rfl
  · have hans := Request.answered_iff (Manager.httpServices lib swagger version rt) manager ht
    obtain ⟨name, version, data, rfl⟩ := hx task ht
    rw [Manager.httpServices_run] at hans ⊢
    simp only [Manager.run] at hans ⊢
    rcases executeSession_cases hu ht with ⟨e, he⟩ | ⟨_, _, output, text, _, _, _, hp, htext, he⟩
    · rw [he]
    · rw [he] at hans
      rw [hans.2 ⟨hp, output, text, rfl, htext⟩] at ha
      cases ha

/-- The count of each session that is there is the one of the requests. -/
def Counted (history : History) : Prop :=
  ∀ key session, history.manager.sessions.find key = some session →
    session.execution_count = executions key history.handled

theorem executions_snoc (key : SessionKey) (before : List Handled) (handled : Handled) :
    executions key (before ++ [handled]) = countHandled key (executions key before) handled :=
  List.foldl_concat ..

theorem count_create {n : Nat} {answered : Bool}
    (h : ∀ session, manager.sessions.find key = some session → session.execution_count = n)
    (hf : (manager.run lib rt (.createSession name version option data)).1.sessions.find key =
      some session) :
    session.execution_count = countHandled key n ⟨some (.ok (.createSession name version option
      data)), (manager.run lib rt (.createSession name version option data)).2.isOk, answered⟩ := by
  rw [Manager.run, Manager.describe] at hf ⊢
  rcases perform_create (rt.loader lib) name version option data manager.sessions with
    ⟨e, he⟩ | ⟨created, new, hk, hload, hnone, he⟩
  · simp only [he] at hf ⊢
    exact h session hf
  · simp only [he] at hf ⊢
    simp only [countHandled]
    by_cases hkey : key = created
    · subst hkey
      rw [OrderedMap.find_emplace_self _ hnone] at hf
      obtain rfl := Option.some.inj hf
      rw [if_pos ⟨rfl, sessionKey_ok.1 hk⟩, (load_ok hload).2.2.2.1]
    · rw [OrderedMap.find_emplace_of_ne _ hkey] at hf
      have hne := not_named_of_ne hk hkey
      rw [if_neg fun hc => hne hc.2, h session hf]

theorem count_execute {n : Nat} {answered ran : Bool}
    (h : ∀ session, manager.sessions.find key = some session → session.execution_count = n)
    (hu : Undisturbed lib rt manager req)
    (ht : req.task lib = some (.ok (.executeSession name version data)))
    (ha : answered = true ↔ req.PeerKnown ∧ ∃ result text,
      (manager.run lib rt (.executeSession name version data)).2 = .ok result ∧
        result.dump lib.dumpFloat = .ok text)
    (hf : (manager.run lib rt (.executeSession name version data)).1.sessions.find key =
      some session) :
    session.execution_count =
      countHandled key n ⟨some (.ok (.executeSession name version data)), ran, answered⟩ := by
  simp only [Manager.run] at ha hf
  simp only [countHandled]
  rcases executeSession_cases hu ht with
    ⟨e, he⟩ | ⟨executed, old, output, text, heap, hk, hold, hp, htext, he⟩
  · rw [he] at ha hf
    have hans : answered ≠ true := by
      intro hc
      obtain ⟨_, _, _, hres, _⟩ := ha.1 hc
      cases hres
    rw [if_neg fun hc => hans hc.1]
    exact h session hf
  · rw [he] at ha hf
    have hans : answered = true := ha.2 ⟨hp, output, text, rfl, htext⟩
    rw [OrderedMap.find_modify] at hf
    by_cases hkey : key = executed
    · subst hkey
      rw [hold, Option.map_some, if_pos rfl] at hf
      obtain rfl := Option.some.inj hf
      rw [if_pos ⟨hans, sessionKey_ok.1 hk⟩, ← h old hold]
      rfl
    · have hne : ¬ (name = key.model_name ∧ version = key.model_version) := by
        intro hname
        rw [sessionKey_ok.2 hname] at hk
        exact hkey (Except.ok.inj hk)
      simp only [if_neg hkey, Option.map_id_fun', id_eq] at hf
      rw [if_neg fun hc => hne hc.2, h session hf]

theorem Counted.handle (h : Counted history) (hu : Undisturbed lib rt history.manager req) :
    Counted (history.handle (Manager.httpServices lib swagger version rt) req) := by
  intro key session hf
  have hkey := h key
  rw [History.handle] at hf ⊢
  dsimp only at hf ⊢
  rw [executions_snoc]
  rw [Request.answer_manager, Manager.httpServices_json] at hf
  rw [Manager.httpServices_json]
  rcases ht : req.task lib with _ | e | task
  · rw [ht] at hf
    exact hkey session hf
  · rw [ht] at hf
    exact hkey session hf
  · have hans := Request.answered_iff (Manager.httpServices lib swagger version rt)
      history.manager ht
    simp only [ht, Manager.httpServices_run] at hf hans ⊢
    cases task with
    | createSession name version option data => exact count_create hkey hf
    | executeSession name version data => exact count_execute hkey hu ht hans hf
    | getSession name version =>
      simp only [Manager.run, Manager.describe_sessions, perform_get] at hf
      exact hkey session hf
    | destroySession name version =>
      simp only [Manager.run, Manager.describe_sessions] at hf
      exact hkey session (perform_remove hf)
    | listSession => exact hkey session hf

theorem toJson_count (session : Session) : session.toJson.find (ascii "execution_count") =
    some (.integer (.ofNat session.execution_count)) := rfl

/-- In every run in which nothing fails after the session has been found, the count that a session
reports is the number of the executions that were answered with a result since it was created, and
a request to execute that is answered with an error leaves every report as it was. -/
theorem execution_count_eq
    (h : Reachable Started (Step lib swagger version) history) :
    (∀ key session, history.manager.sessions.find key = some session →
      session.toJson.find (ascii "execution_count") =
        some (.integer (.ofNat (executions key history.handled)))) ∧
    ∀ rt req, Undisturbed lib rt history.manager req → req.Executing lib →
      (req.answer (Manager.httpServices lib swagger version rt) history.manager).1 = false →
      ∀ key, ((req.answer (Manager.httpServices lib swagger version rt)
          history.manager).2.sessions.find key).map Session.toJson =
        (history.manager.sessions.find key).map Session.toJson := by
  constructor
  · intro key session hf
    have hcounted : Counted history := by
      apply h.invariant
      · rintro s ⟨hnil, hzero⟩ k v hv
        rw [hnil, hzero k v hv]
        rfl
      · rintro s s' _ hs ⟨rt, req, hu, rfl⟩
        exact hs.handle hu
    rw [toJson_count, hcounted key session hf]
  · intro rt req hu hx ha key
    rw [sessions_of_unanswered hu hx ha]

end

def exampleLib (text : Bytes) (data : Json) : JsonLibrary where
  parse s :=
    if s = text then ⟨[0, 0], .ok data⟩
    else ⟨[0, 1, 1, 1, 1, 1, 1, 1, 0], .ok (executeBody (ascii "m") (ascii "1") data)⟩
  dumpFloat _ := []

def exampleServices (text : Bytes) (data : Json) (now : Int64) : HttpServices Manager :=
  Manager.httpServices (exampleLib text data) ⟨[], [], []⟩ [] { exampleRuntime with now }

def exampleStart : History := ⟨⟨OrderedMap.empty, Heap.empty⟩, []⟩

def exampleCreated (text : Bytes) (data : Json) : History :=
  History.handle (exampleServices text data 3)
    (.http ⟨.post, ascii "/api/sessions", 11, true, exampleBuffer text⟩) exampleStart

def exampleExecuted (text : Bytes) (data : Json) : History :=
  History.handle (exampleServices text data 7) (.http (exampleHttp text)) (exampleCreated text data)

/-- An execution without inputs is counted. -/
theorem execution_count_eq_once : ∃ session,
    (exampleExecuted (ascii "\x7b\x7d") (.object [])).manager.sessions.find Session.exampleKey =
        some session ∧
      session.toJson.find (ascii "execution_count") = some (.integer (.ofNat 1)) := by
  have hstart : Started exampleStart := ⟨rfl, fun _ _ hf => by cases hf⟩
  have hcreate : Step (exampleLib (ascii "\x7b\x7d") (.object [])) ⟨[], [], []⟩ [] exampleStart
      (exampleCreated (ascii "\x7b\x7d") (.object [])) := by
    refine ⟨_, _, ?_, rfl⟩
    intro _ _ _ _ _ _ _ hf
    cases hf
  have hexecute : Step (exampleLib (ascii "\x7b\x7d") (.object [])) ⟨[], [], []⟩ []
      (exampleCreated (ascii "\x7b\x7d") (.object []))
      (exampleExecuted (ascii "\x7b\x7d") (.object [])) := by
    refine ⟨_, _, ?_, rfl⟩
    intro name version data key session ht hk hf
    obtain ⟨rfl, rfl, rfl⟩ := Task.executeSession.inj (Except.ok.inj (Option.some.inj ht))
    obtain rfl : Session.exampleKey = key := Except.ok.inj hk
    obtain rfl := Option.some.inj hf
    exact ⟨⟨_, _, _, _, _, _, rfl, rfl, rfl, rfl, rfl⟩, trivial⟩
  exact ⟨_, rfl, (execution_count_eq (.next (.next (.start hstart) hcreate) hexecute)).1
    Session.exampleKey _ rfl⟩

/-- An execution with an array as its data is answered with an error and counted. -/
theorem execution_count_ne : ∃ session,
    (exampleExecuted (ascii "[]") (.array [])).manager.sessions.find Session.exampleKey =
        some session ∧
      (exampleExecuted (ascii "[]") (.array [])).handled.map Handled.answered = [true, false] ∧
      executions Session.exampleKey (exampleExecuted (ascii "[]") (.array [])).handled = 0 ∧
      session.toJson.find (ascii "execution_count") = some (.integer 1) ∧
      session.toJson.find (ascii "last_executed_at") = some (.integer 7) :=
  ⟨_, rfl, rfl, rfl, rfl, rfl⟩

end OnnxruntimeServer
