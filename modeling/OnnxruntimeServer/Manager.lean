import OnnxruntimeServer.ContextRun
import OnnxruntimeServer.ListSession
import OnnxruntimeServer.Task

namespace OnnxruntimeServer
set_option autoImplicit true

/-- What lies outside the tasks during one of them: the clock, the getter of models, what a model
and its options are made into, the verdicts of ONNX Runtime and of the thread pool, and what comes
of a step that C++ leaves undefined. -/
structure Runtime where
  now : Int64
  model_bin_getter : Bytes → Bytes → Except Exception Bytes
  openData : Bytes → Json → Except Exception (Json × OrtSession)
  openPath : Bytes → Json → Except Exception (Json × OrtSession)
  createTensor : CreateTensor → Except Bytes Unit
  enqueue : Except Exception Unit
  ort : OrtRun
  undefined : Except Exception Json

def Runtime.loader (lib : JsonLibrary) (rt : Runtime) : Loader Session where
  model_bin_getter := rt.model_bin_getter
  fromData key data option := do
    let (option, ort_session) ← rt.openData data option
    Session.init lib.dumpFloat key option rt.now ort_session
  fromPath key path option := do
    let (option, ort_session) ← rt.openPath path option
    Session.init lib.dumpFloat key option rt.now ort_session

/-- The session manager, and the objects that its tasks have made. -/
structure Manager where
  sessions : Sessions Session
  heap : Heap

/-- `execute_session::run` from the construction of the context on. -/
def execute (lib : JsonLibrary) (rt : Runtime) (session : Session) (data : Json) (heap : Heap) :
    Except Exception Json × Heap :=
  match ExecutionContext.new lib rt.createTensor session data heap with
  | (.error e, heap) => (.error e, heap)
  | (.ok ctx, heap) =>
    match rt.enqueue with
    | .error e => (.error e, ctx.delete heap)
    | .ok _ =>
      match ctx.run rt.ort with
      | none => (rt.undefined, heap)
      | some (.error e, ctx) => (.error e, ctx.delete heap)
      | some (.ok result, ctx) =>
        match ctx.tensorsToJson result with
        | .error _ => (rt.undefined, heap)
        | .ok output => (.ok output, ctx.delete heap)

namespace Manager

def describe (lib : JsonLibrary) (rt : Runtime) (call : Call) (manager : Manager) :
    Manager × Except Exception Json :=
  match perform (rt.loader lib) call manager.sessions with
  | (.created session, sessions) => ({ manager with sessions }, .ok session.toJson)
  | (.found (some session), sessions) => ({ manager with sessions }, .ok session.toJson)
  | (.found none, sessions) => ({ manager with sessions }, .error notFoundError)
  | (.removed, sessions) => ({ manager with sessions }, .ok (.boolean true))
  | (.failed e, sessions) => ({ manager with sessions }, .error e)

def executeSession (lib : JsonLibrary) (rt : Runtime) (model_name model_version : Bytes)
    (data : Json) (manager : Manager) : Manager × Except Exception Json :=
  match sessionKey model_name model_version with
  | .error e => (manager, .error e)
  | .ok key =>
    match manager.sessions.find key with
    | none => (manager, .error notFoundError)
    | some session =>
      let sessions := manager.sessions.modify key (Session.touch rt.now)
      let (result, heap) := execute lib rt (session.touch rt.now) data manager.heap
      ({ sessions, heap }, result)

/-- `run()` of a task. -/
def run (lib : JsonLibrary) (rt : Runtime) (manager : Manager) :
    Task → Manager × Except Exception Json
  | .createSession name version option data =>
    manager.describe lib rt (.create name version option data)
  | .executeSession name version data => manager.executeSession lib rt name version data
  | .getSession name version => manager.describe lib rt (.get name version)
  | .destroySession name version => manager.describe lib rt (.remove name version)
  | .listSession =>
    (manager, .ok (.array (manager.sessions.entries.map fun e => e.2.toJson)))

def services (lib : JsonLibrary) (rt : Runtime) : Services Manager := ⟨lib, run lib rt⟩

end Manager

/-- However a session is made, `init` comes last. -/
theorem load_opened {rt : Runtime} {session : Session}
    (h : load (rt.loader lib) name version option key source = .ok session) :
    ∃ opened, ((∃ data, rt.openData data option = .ok opened) ∨
        ∃ path, rt.openPath path option = .ok opened) ∧
      Session.init lib.dumpFloat key opened.1 rt.now opened.2 = .ok session := by
  have hdata : ∀ data, (rt.loader lib).fromData key data option = .ok session →
      ∃ opened, ((∃ data, rt.openData data option = .ok opened) ∨
          ∃ path, rt.openPath path option = .ok opened) ∧
        Session.init lib.dumpFloat key opened.1 rt.now opened.2 = .ok session := by
    intro data hmade
    obtain ⟨opened, hopened, hinit⟩ := bind_eq_ok.1 hmade
    exact ⟨opened, .inl ⟨data, hopened⟩, hinit⟩
  cases source with
  | data data => exact hdata data h
  | path path =>
    obtain ⟨opened, hopened, hinit⟩ := bind_eq_ok.1 h
    exact ⟨opened, .inr ⟨path, hopened⟩, hinit⟩
  | getter =>
    obtain ⟨bin, _, hmade⟩ := bind_eq_ok.1 h
    exact hdata bin hmade

theorem load_ok {rt : Runtime} {session : Session}
    (h : load (rt.loader lib) name version option key source = .ok session) :
    session.Initialized ∧ session.key = key ∧ session.created_at = rt.now ∧
      session.execution_count = 0 ∧ session.last_executed_at = 0 := by
  obtain ⟨opened, _, hinit⟩ := load_opened h
  exact Session.init_ok hinit

/-- A create that succeeds registers what its construction has made; any other changes nothing. -/
theorem perform_create (loader : Loader S) (name version : Bytes) (option : Json)
    (data : Option Bytes) (sessions : Sessions S) :
    (∃ e, perform loader (.create name version option data) sessions = (.failed e, sessions)) ∨
      ∃ key session, sessionKey name version = .ok key ∧
        load loader name version option key (modelSource option data) = .ok session ∧
        sessions.find key = none ∧
        perform loader (.create name version option data) sessions =
          (.created session, sessions.emplace key session) := by
  rw [perform, Call.key]
  cases hk : sessionKey name version with
  | error e => exact .inl ⟨e, rfl⟩
  | ok key =>
    cases hf : sessions.find key with
    | some session => exact .inl ⟨conflictError, by simp only [hf]⟩
    | none =>
      simp only [hf]
      cases hl : load loader name version option key (modelSource option data) with
      | error e => exact .inl ⟨e, rfl⟩
      | ok session => exact .inr ⟨key, session, rfl, hl, hf, rfl⟩

theorem perform_get (loader : Loader S) (name version : Bytes) (sessions : Sessions S) :
    (perform loader (.get name version) sessions).2 = sessions := by
  rw [perform]
  cases (Call.get name version).key <;> rfl

theorem perform_remove (h : (perform loader (.remove name version) sessions).2.find key =
    some session) : sessions.find key = some session := by
  rw [perform, Call.key] at h
  cases hk : sessionKey name version with
  | error e =>
    rw [hk] at h
    exact h
  | ok removed =>
    cases hf : sessions.find removed with
    | none =>
      simp only [hk, hf] at h
      exact h
    | some _ =>
      simp only [hk, hf] at h
      have hne : key ≠ removed := by
        rintro rfl
        rw [OrderedMap.find_erase_self] at h
        cases h
      rwa [OrderedMap.find_erase_of_ne _ hne] at h

theorem Manager.describe_sessions (lib : JsonLibrary) (rt : Runtime) (call : Call)
    (manager : Manager) : (manager.describe lib rt call).1.sessions =
      (perform (rt.loader lib) call manager.sessions).2 := by
  rw [describe]
  rcases perform (rt.loader lib) call manager.sessions with ⟨ret, sessions⟩
  cases ret with
  | found session => cases session <;> rfl
  | _ => rfl

namespace Manager
variable {manager : Manager} {lib : JsonLibrary} {rt : Runtime}

/-- The names and counts of each session that is there belong to its inputs and outputs. -/
def Ready (manager : Manager) : Prop :=
  ∀ key session, manager.sessions.find key = some session → session.Initialized

theorem Ready.create (h : manager.Ready) (name version : Bytes) (option : Json)
    (data : Option Bytes) :
    (manager.run lib rt (.createSession name version option data)).1.Ready := by
  intro key session hf
  rw [run, describe_sessions] at hf
  have hc := perform_create (rt.loader lib) name version option data manager.sessions
  obtain ⟨e, he⟩ | ⟨created, new, _, hload, hnone, he⟩ := hc
  · rw [he] at hf
    exact h key session hf
  · rw [he] at hf
    dsimp only at hf
    by_cases hkey : key = created
    · subst hkey
      rw [OrderedMap.find_emplace_self _ hnone] at hf
      obtain rfl := Option.some.inj hf
      exact (load_ok hload).1
    · rw [OrderedMap.find_emplace_of_ne _ hkey] at hf
      exact h key session hf

theorem Ready.execute (h : manager.Ready) (name version : Bytes) (data : Json) :
    (manager.run lib rt (.executeSession name version data)).1.Ready := by
  rw [run, executeSession]
  cases sessionKey name version with
  | error e => exact h
  | ok executed =>
    cases hfound : manager.sessions.find executed with
    | none =>
      simp only [hfound]
      exact h
    | some old =>
      simp only [hfound]
      intro key session hf
      dsimp only at hf
      rw [OrderedMap.find_modify] at hf
      obtain ⟨before, hbefore, rfl⟩ := Option.map_eq_some_iff.1 hf
      split_ifs
      · exact (h key before hbefore).touch rt.now
      · exact h key before hbefore

theorem Ready.run (h : manager.Ready) (task : Task) : (manager.run lib rt task).1.Ready := by
  cases task with
  | createSession name version option data => exact h.create name version option data
  | executeSession name version data => exact h.execute name version data
  | getSession name version =>
    intro key session hf
    rw [Manager.run, describe_sessions, perform_get] at hf
    exact h key session hf
  | destroySession name version =>
    intro key session hf
    rw [Manager.run, describe_sessions] at hf
    exact h key session (perform_remove hf)
  | listSession => exact h

end Manager

def exampleRuntime : Runtime where
  now := 0
  model_bin_getter _ _ := .ok []
  openData _ _ := .ok (.object [], ⟨0, [], []⟩)
  openPath _ _ := .ok (.object [], ⟨0, [], []⟩)
  createTensor _ := .ok ()
  enqueue := .ok ()
  ort _ _ _ _ := .ok []
  undefined := .ok .null

end OnnxruntimeServer
