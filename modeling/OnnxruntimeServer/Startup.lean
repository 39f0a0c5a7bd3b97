import OnnxruntimeServer.ExecutionCount
import OnnxruntimeServer.SessionKeyWithOption

namespace OnnxruntimeServer
set_option autoImplicit true
open Transition

namespace Manager

def empty (heap : Heap) : Manager := ⟨OrderedMap.empty, heap⟩

/-- The body of the loop of `prepare_models`. -/
def prepare (lib : JsonLibrary) (rt : SessionKey → Runtime) (manager : Manager)
    (model : SessionKeyWithOption) : Except Exception Manager :=
  match perform ((rt model.key).loader lib)
      (.create model.key.model_name model.key.model_version model.option none) manager.sessions with
  | (.failed e, _) => .error e
  | (_, sessions) => .ok { manager with sessions }

/-- `prepare_models`. What lies outside while the session of a key is made is `rt key`. -/
def prepareModels (lib : JsonLibrary) (rt : SessionKey → Runtime) (prepare_model : Bytes)
    (manager : Manager) : Except Exception Manager := do
  let model_keys ← SessionKeyWithOption.parse prepare_model
  model_keys.foldlM (prepare lib rt) manager

end Manager

/-- What the constructor of a session makes of a model that is prepared. -/
def SessionKeyWithOption.load (lib : JsonLibrary) (rt : SessionKey → Runtime)
    (model : SessionKeyWithOption) : Except Exception Session :=
  OnnxruntimeServer.load ((rt model.key).loader lib) model.key.model_name model.key.model_version
    model.option model.key (modelSource model.option none)

variable {lib : JsonLibrary} {rt : SessionKey → Runtime} {manager manager' : Manager}
  {model : SessionKeyWithOption} {models : List SessionKeyWithOption}

theorem Manager.prepare_ok_iff : manager.prepare lib rt model = .ok manager' ↔
    manager.sessions.find model.key = none ∧ ∃ session, model.load lib rt = .ok session ∧
      manager' = { manager with sessions := manager.sessions.emplace model.key session } := by
  have hkey : sessionKey model.key.model_name model.key.model_version = .ok model.key :=
    sessionKey_ok.2 ⟨rfl, rfl⟩
  rw [prepare, perform, Call.key, hkey]
  cases hf : manager.sessions.find model.key with
  | some session => simp [hf]
  | none =>
    simp only [hf]
    change (match finish model.key manager.sessions (model.load lib rt) with
      | (.failed e, _) => Except.error e
      | (_, sessions) => Except.ok { manager with sessions }) = _ ↔ _
    cases model.load lib rt with
    | error e => simp [finish]
    | ok session => simp [finish, eq_comm]

theorem find_emplace {sessions : Sessions Session} (h : sessions.find key = none)
    (session : Session) (key' : SessionKey) : (sessions.emplace key session).find key' =
      if key' = key then some session else sessions.find key' := by
  split_ifs with hk
  · rw [hk, OrderedMap.find_emplace_self _ h]
  · rw [OrderedMap.find_emplace_of_ne _ hk]

/-- The loop of `prepare_models` succeeds when no key is taken or given twice and every model can be
loaded. -/
theorem Manager.prepared_iff (manager : Manager) (models : List SessionKeyWithOption) :
    (∃ manager', models.foldlM (prepare lib rt) manager = .ok manager') ↔
      (models.map SessionKeyWithOption.key).Nodup ∧ ∀ model ∈ models,
        manager.sessions.find model.key = none ∧ ∃ session, model.load lib rt = .ok session := by
  induction models generalizing manager with
  | nil => exact ⟨fun _ => ⟨List.nodup_nil, nofun⟩, fun _ => ⟨manager, rfl⟩⟩
  | cons model models ih =>
    rw [List.map_cons, List.nodup_cons, List.forall_mem_cons]
    constructor
    · rintro ⟨manager', h⟩
      obtain ⟨manager₁, hprepare, h⟩ := bind_eq_ok.1 h
      obtain ⟨hfree, session, hload, rfl⟩ := prepare_ok_iff.1 hprepare
      obtain ⟨hnodup, hmodels⟩ := (ih _).1 ⟨manager', h⟩
      have hother : ∀ other ∈ models,
          other.key ≠ model.key ∧ manager.sessions.find other.key = none := by
        intro other hmem
        have hnone := (hmodels other hmem).1
        rw [find_emplace hfree] at hnone
        split_ifs at hnone with hk
        exact ⟨hk, hnone⟩
      refine ⟨⟨?_, hnodup⟩, ⟨hfree, session, hload⟩, fun other hmem =>
        ⟨(hother other hmem).2, (hmodels other hmem).2⟩⟩
      intro hmem
      obtain ⟨other, hmem, hk⟩ := List.mem_map.1 hmem
      exact (hother other hmem).1 hk
    · rintro ⟨⟨hnew, hnodup⟩, ⟨hfree, session, hload⟩, hmodels⟩
      have hprepare := prepare_ok_iff.2 ⟨hfree, session, hload, rfl⟩
      have hother : ∀ other ∈ models,
          (manager.sessions.emplace model.key session).find other.key = none := by
        intro other hmem
        have hk : other.key ≠ model.key := fun hk => hnew (List.mem_map.2 ⟨other, hmem, hk⟩)
        rw [find_emplace hfree, if_neg hk, (hmodels other hmem).1]
      obtain ⟨manager', h⟩ := (ih ⟨manager.sessions.emplace model.key session, manager.heap⟩).2
        ⟨hnodup, fun other hmem => ⟨hother other hmem, (hmodels other hmem).2⟩⟩
      exact ⟨manager', bind_eq_ok.2 ⟨_, hprepare, h⟩⟩

theorem Manager.find_prepared (h : models.foldlM (prepare lib rt) manager = .ok manager')
    (key : SessionKey) (session : Session) : manager'.sessions.find key = some session ↔
      manager.sessions.find key = some session ∨
        ∃ model ∈ models, model.key = key ∧ model.load lib rt = .ok session := by
  induction models generalizing manager with
  | nil =>
    obtain rfl := Except.ok.inj h
    simp
  | cons model models ih =>
    obtain ⟨manager₁, hprepare, h⟩ := bind_eq_ok.1 h
    obtain ⟨hfree, made, hload, rfl⟩ := prepare_ok_iff.1 hprepare
    rw [ih h, find_emplace hfree]
    by_cases hk : key = model.key
    · subst hk
      simp [hfree, hload]
    · simp [hk, Ne.symm hk]

/-- Startup succeeds when the text of the option is a list of models of which each can be loaded and
none is given twice. The server then has the sessions of these models, and no others. -/
theorem startup_iff (lib : JsonLibrary) (rt : SessionKey → Runtime) (prepare_model : Bytes)
    (heap : Heap) :
    ((∃ manager, (Manager.empty heap).prepareModels lib rt prepare_model = .ok manager) ↔
        ∃ models, SessionKeyWithOption.parse prepare_model = .ok models ∧
          (models.map SessionKeyWithOption.key).Nodup ∧
          ∀ model ∈ models, ∃ session, model.load lib rt = .ok session) ∧
      ∀ manager models, (Manager.empty heap).prepareModels lib rt prepare_model = .ok manager →
        SessionKeyWithOption.parse prepare_model = .ok models →
          ∀ key session, manager.sessions.find key = some session ↔
            ∃ model ∈ models, model.key = key ∧ model.load lib rt = .ok session := by
  constructor
  · constructor
    · rintro ⟨manager, h⟩
      obtain ⟨models, hparse, h⟩ := bind_eq_ok.1 h
      obtain ⟨hnodup, hmodels⟩ := (Manager.prepared_iff _ _).1 ⟨manager, h⟩
      exact ⟨models, hparse, hnodup, fun model hmem => (hmodels model hmem).2⟩
    · rintro ⟨models, hparse, hnodup, hmodels⟩
      obtain ⟨manager, h⟩ := (Manager.prepared_iff (Manager.empty heap) models).2
        ⟨hnodup, fun model hmem => ⟨rfl, hmodels model hmem⟩⟩
      exact ⟨manager, bind_eq_ok.2 ⟨models, hparse, h⟩⟩
  · intro manager models h hparse key session
    obtain ⟨models', hparse', h⟩ := bind_eq_ok.1 h
    obtain rfl := Except.ok.inj (hparse'.symm.trans hparse)
    rw [Manager.find_prepared h]
    simp [Manager.empty]

/-- A task that was run, and whether it returned a result. -/
structure Ran where
  task : Task
  ok : Bool

namespace Ran

def creates (key : SessionKey) (ran : Ran) : Bool :=
  match ran.task with
  | .createSession name version _ _ =>
    ran.ok && decide (name = key.model_name ∧ version = key.model_version)
  | _ => false

def destroys (key : SessionKey) (ran : Ran) : Bool :=
  match ran.task with
  | .destroySession name version =>
    ran.ok && decide (name = key.model_name ∧ version = key.model_version)
  | _ => false

/-- A model that was prepared counts as a create. -/
def ofModel (model : SessionKeyWithOption) : Ran :=
  ⟨.createSession model.key.model_name model.key.model_version model.option none, true⟩

end Ran

/-- A server that has started: its manager, and all that was run to get there. -/
structure Server where
  manager : Manager
  ran : List Ran

/-- `main` has prepared the models and serves from now on. -/
def Server.Starts (lib : JsonLibrary) (server : Server) : Prop :=
  ∃ rt prepare_model heap models, SessionKeyWithOption.parse prepare_model = .ok models ∧
    (Manager.empty heap).prepareModels lib rt prepare_model = .ok server.manager ∧
    server.ran = models.map Ran.ofModel

/-- A request of some client is made a task, and that is run. -/
def Server.Serves (lib : JsonLibrary) (server server' : Server) : Prop :=
  ∃ rt task, server' = ⟨(server.manager.run lib rt task).1,
    server.ran ++ [⟨task, (server.manager.run lib rt task).2.isOk⟩]⟩

namespace Server

def creates (key : SessionKey) (server : Server) : Nat := server.ran.countP (Ran.creates key)

def destroys (key : SessionKey) (server : Server) : Nat := server.ran.countP (Ran.destroys key)

/-- A key is registered when one more create than destroys of it have succeeded. -/
def Accounts (server : Server) : Prop :=
  ∀ key, server.creates key =
    server.destroys key + (server.manager.sessions.find key).isSome.toNat

/-- Each session is registered under its own key. -/
def Keyed (server : Server) : Prop :=
  ∀ key session, server.manager.sessions.find key = some session → session.key = key

end Server

theorem perform_remove_cases (loader : Loader S) (name version : Bytes) (sessions : Sessions S) :
    (∃ e, perform loader (.remove name version) sessions = (.failed e, sessions) ∧
        ∀ key, sessionKey name version = .ok key → sessions.find key = none) ∨
      ∃ key session, sessionKey name version = .ok key ∧ sessions.find key = some session ∧
        perform loader (.remove name version) sessions = (.removed, sessions.erase key) := by
  rw [perform, Call.key]
  cases hk : sessionKey name version with
  | error e =>
    refine .inl ⟨e, rfl, ?_⟩
    intro key h
    cases h
  | ok key =>
    cases hf : sessions.find key with
    | none =>
      refine .inl ⟨notFoundError, by simp only [hf], ?_⟩
      intro key' hk'
      obtain rfl := Except.ok.inj hk'
      exact hf
    | some session => exact .inr ⟨key, session, rfl, hf, by simp only [hf]⟩

theorem named_iff (hk : sessionKey name version = .ok key') :
    (name = key.model_name ∧ version = key.model_version) ↔ key = key' := by
  constructor
  · intro h
    rw [sessionKey_ok.2 h] at hk
    exact Except.ok.inj hk
  · rintro rfl
    exact sessionKey_ok.1 hk

theorem Manager.run_accounts (lib : JsonLibrary) (rt : Runtime) (manager : Manager) (task : Task)
    (key : SessionKey) :
    let ran : Ran := ⟨task, (manager.run lib rt task).2.isOk⟩
    (ran.creates key).toNat + (manager.sessions.find key).isSome.toNat =
      (ran.destroys key).toNat + ((manager.run lib rt task).1.sessions.find key).isSome.toNat := by
  intro ran
  cases task with
  | createSession name version option data =>
    have hd : ran.destroys key = false := rfl
    rw [hd, Ran.creates]
    simp only [ran, run, describe]
    rcases perform_create (rt.loader lib) name version option data manager.sessions with
      ⟨e, he⟩ | ⟨created, session, hk, _, hnone, he⟩
    · simp [he, Except.isOk, Except.toBool]
    · rw [he]
      simp only [named_iff hk, find_emplace hnone, Except.isOk, Except.toBool, Bool.true_and]
      by_cases hkey : key = created
      · simp [hkey, hnone]
      · simp [hkey]
  | executeSession name version data =>
    have hc : ran.creates key = false := rfl
    have hd : ran.destroys key = false := rfl
    rw [hc, hd, run, executeSession]
    cases sessionKey name version with
    | error e => rfl
    | ok executed =>
      cases hf : manager.sessions.find executed with
      | none => simp only [hf]
      | some session =>
        simp only [hf, OrderedMap.find_modify, Option.isSome_map]
  | getSession name version =>
    have hc : ran.creates key = false := rfl
    have hd : ran.destroys key = false := rfl
    rw [hc, hd, run, describe_sessions, perform_get]
  | destroySession name version =>
    have hc : ran.creates key = false := rfl
    rw [hc, Ran.destroys]
    simp only [ran, run, describe]
    rcases perform_remove_cases (rt.loader lib) name version manager.sessions with
      ⟨e, he, _⟩ | ⟨removed, session, hk, hf, he⟩
    · simp [he, Except.isOk, Except.toBool]
    · rw [he]
      simp only [named_iff hk, Except.isOk, Except.toBool, Bool.true_and]
      by_cases hkey : key = removed
      · simp [hkey, hf, OrderedMap.find_erase_self]
      · simp [hkey, OrderedMap.find_erase_of_ne _ hkey]
  | listSession => rfl

/-- A session that is registered after a task was so before, but for the count of an execution, or
was made by the task. -/
theorem Manager.run_find {lib : JsonLibrary} {rt : Runtime} {manager : Manager} {task : Task}
    (hf : (manager.run lib rt task).1.sessions.find key = some session) :
    (∃ before, manager.sessions.find key = some before ∧
        (session = before ∨ session = before.touch rt.now)) ∨
      ∃ name version option data, task = .createSession name version option data ∧
        OnnxruntimeServer.load (rt.loader lib) name version option key (modelSource option data) =
          .ok session := by
  cases task with
  | createSession name version option data =>
    rw [run, describe_sessions] at hf
    rcases perform_create (rt.loader lib) name version option data manager.sessions with
      ⟨e, he⟩ | ⟨created, made, _, hload, hnone, he⟩
    · rw [he] at hf
      exact .inl ⟨session, hf, .inl rfl⟩
    · rw [he] at hf
      dsimp only at hf
      rw [find_emplace hnone] at hf
      split_ifs at hf with hk
      · obtain rfl := Option.some.inj hf
        rw [hk]
        exact .inr ⟨name, version, option, data, rfl, hload⟩
      · exact .inl ⟨session, hf, .inl rfl⟩
  | executeSession name version data =>
    rw [run, executeSession] at hf
    cases hkey : sessionKey name version with
    | error e =>
      rw [hkey] at hf
      exact .inl ⟨session, hf, .inl rfl⟩
    | ok executed =>
      cases hfound : manager.sessions.find executed with
      | none =>
        simp only [hkey, hfound] at hf
        exact .inl ⟨session, hf, .inl rfl⟩
      | some old =>
        simp only [hkey, hfound, OrderedMap.find_modify] at hf
        obtain ⟨before, hbefore, rfl⟩ := Option.map_eq_some_iff.1 hf
        apply Or.inl
        split_ifs
        · exact ⟨before, hbefore, .inr rfl⟩
        · exact ⟨before, hbefore, .inl rfl⟩
  | getSession name version =>
    rw [run, describe_sessions, perform_get] at hf
    exact .inl ⟨session, hf, .inl rfl⟩
  | destroySession name version =>
    rw [run, describe_sessions] at hf
    exact .inl ⟨session, perform_remove hf, .inl rfl⟩
  | listSession => exact .inl ⟨session, hf, .inl rfl⟩

namespace Server

variable {server server' : Server}

theorem creates_ofModel (key : SessionKey) (models : List SessionKeyWithOption) :
    (models.map Ran.ofModel).countP (Ran.creates key) =
      (models.map SessionKeyWithOption.key).count key := by
  rw [List.count, List.countP_map, List.countP_map]
  apply List.countP_congr
  intro model _
  have hkey : sessionKey model.key.model_name model.key.model_version = .ok model.key :=
    sessionKey_ok.2 ⟨rfl, rfl⟩
  change (true && decide (_ ∧ _)) = true ↔ (model.key == key) = true
  rw [Bool.true_and, decide_eq_true_eq, named_iff hkey, beq_iff_eq, eq_comm]

theorem destroys_ofModel (key : SessionKey) (models : List SessionKeyWithOption) :
    (models.map Ran.ofModel).countP (Ran.destroys key) = 0 := by
  rw [List.countP_map, List.countP_eq_zero]
  intro model _
  simp [Ran.destroys, Ran.ofModel]

theorem Starts.accounts (h : server.Starts lib) : server.Accounts ∧ server.Keyed := by
  obtain ⟨rt, prepare_model, heap, models, hparse, hprepare, hran⟩ := h
  obtain ⟨models', hparse', hfold⟩ := bind_eq_ok.1 hprepare
  obtain rfl := Except.ok.inj (hparse'.symm.trans hparse)
  obtain ⟨hnodup, hmodels⟩ := (Manager.prepared_iff _ _).1 ⟨_, hfold⟩
  have hfind := Manager.find_prepared hfold
  constructor
  · intro key
    rw [creates, destroys, hran, creates_ofModel, destroys_ofModel, Nat.zero_add, hnodup.count]
    have hmem : key ∈ models'.map SessionKeyWithOption.key ↔
        (server.manager.sessions.find key).isSome = true := by
      rw [List.mem_map, Option.isSome_iff_exists]
      constructor
      · rintro ⟨model, hmem, rfl⟩
        obtain ⟨_, session, hload⟩ := hmodels model hmem
        exact ⟨session, (hfind _ _).2 (.inr ⟨model, hmem, rfl, hload⟩)⟩
      · rintro ⟨session, hf⟩
        rcases (hfind _ _).1 hf with hf | ⟨model, hmem, hk, _⟩
        · cases hf
        · exact ⟨model, hmem, hk⟩
    simp only [hmem]
    cases (server.manager.sessions.find key).isSome <;> rfl
  · intro key session hf
    rcases (hfind _ _).1 hf with hf | ⟨model, _, hk, hload⟩
    · cases hf
    · rw [(load_ok hload).2.1, hk]

theorem Accounts.serves (h : server.Accounts) (hs : Serves lib server server') :
    server'.Accounts := by
  obtain ⟨rt, task, rfl⟩ := hs
  intro key
  have hrun := Manager.run_accounts lib rt server.manager task key
  have hkey := h key
  rw [creates, destroys] at hkey ⊢
  dsimp only at hrun ⊢
  rw [List.countP_append, List.countP_append, List.countP_singleton, List.countP_singleton]
  rw [← Bool.cond_eq_ite, ← Bool.cond_eq_ite]
  simp only [Bool.toNat] at hrun hkey ⊢
  omega

theorem Keyed.serves (h : server.Keyed) (hs : Serves lib server server') : server'.Keyed := by
  obtain ⟨rt, task, rfl⟩ := hs
  intro key session hf
  rcases Manager.run_find hf with ⟨before, hbefore, rfl | rfl⟩ | ⟨_, _, _, _, _, hload⟩
  · exact h key session hbefore
  · exact h key before hbefore
  · exact (load_ok hload).2.1

/-- The model and the version that the description of a session shows. -/
def shownKey (description : Json) : Json × Json :=
  (description.member (ascii "model"), description.member (ascii "version"))

theorem shownKey_toJson (session : Session) : shownKey session.toJson =
    (.string session.key.model_name, .string session.key.model_version) := rfl

/-- From the start of the server on, whatever clients ask for, creates and destroys of a key that
succeed take turns, and the answers show what is between them: LIST has the keys with one more
create, in order, and GET and DESTROY find these and no others. -/
theorem registered_accounts (h : Reachable (Starts lib) (Serves lib) server) (rt : Runtime) :
    ∃ keys : List SessionKey, keys.Pairwise (· < ·) ∧
      (∀ key, key ∈ keys ∧ server.creates key = server.destroys key + 1 ∨
        key ∉ keys ∧ server.creates key = server.destroys key) ∧
      (∃ descriptions, (server.manager.run lib rt .listSession).2 = .ok (.array descriptions) ∧
        descriptions.map shownKey =
          keys.map fun key => (.string key.model_name, .string key.model_version)) ∧
      ∀ key, ((∃ description, (server.manager.run lib rt
            (.getSession key.model_name key.model_version)).2 = .ok description) ↔ key ∈ keys) ∧
        ((server.manager.run lib rt (.destroySession key.model_name key.model_version)).2 =
          .ok (.boolean true) ↔ key ∈ keys) := by
  obtain ⟨haccounts, hkeyed⟩ : server.Accounts ∧ server.Keyed :=
    h.invariant (fun _ => Starts.accounts) fun _ _ _ hinv hs =>
      ⟨hinv.1.serves hs, hinv.2.serves hs⟩
  have hmem : ∀ key, key ∈ server.manager.sessions.entries.map Prod.fst ↔
      (server.manager.sessions.find key).isSome = true := by
    intro key
    rw [List.mem_map, Option.isSome_iff_exists]
    constructor
    · rintro ⟨⟨k, session⟩, hmem, rfl⟩
      exact ⟨session, (OrderedMap.mem_iff_find _).1 hmem⟩
    · rintro ⟨session, hf⟩
      exact ⟨(key, session), (OrderedMap.mem_iff_find _).2 hf, rfl⟩
  refine ⟨server.manager.sessions.entries.map Prod.fst, ?_, ?_, ?_, ?_⟩
  · exact server.manager.sessions.sorted.map _ fun _ _ hlt => hlt
  · intro key
    have hkey := haccounts key
    rw [hmem]
    cases hs : (server.manager.sessions.find key).isSome with
    | true =>
      rw [hs] at hkey
      exact .inl ⟨rfl, hkey⟩
    | false =>
      rw [hs] at hkey
      exact .inr ⟨nofun, hkey⟩
  · refine ⟨_, rfl, ?_⟩
    rw [List.map_map, List.map_map]
    apply List.map_congr_left
    rintro ⟨key, session⟩ he
    have hk := hkeyed key session ((OrderedMap.mem_iff_find _).1 he)
    rw [Function.comp_apply, Function.comp_apply, shownKey_toJson, hk]
  · intro key
    have hkey : sessionKey key.model_name key.model_version = .ok key := sessionKey_ok.2 ⟨rfl, rfl⟩
    rw [hmem, Manager.run, Manager.run, Manager.describe, Manager.describe, perform, perform,
      Call.key, Call.key, hkey]
    cases hf : server.manager.sessions.find key with
    | none => simp [hf]
    | some session => simp [hf]

def nullLib : JsonLibrary := ⟨fun _ => ⟨[], .ok .null⟩, fun _ => []⟩

def firstCreate : Task := .createSession (ascii "m") (ascii "1") (.object []) none

def firstDestroy : Task := .destroySession (ascii "m") (ascii "1")

def served (server : Server) (task : Task) : Server :=
  ⟨(server.manager.run nullLib exampleRuntime task).1,
    server.ran ++ [⟨task, (server.manager.run nullLib exampleRuntime task).2.isOk⟩]⟩

def recreated : Server :=
  [firstCreate, firstDestroy, firstCreate].foldl served ⟨Manager.empty Heap.empty, []⟩

theorem registered_accounts_recreated :
    recreated.creates Session.exampleKey = 2 ∧ recreated.destroys Session.exampleKey = 1 ∧
      ∃ keys : List SessionKey, Session.exampleKey ∈ keys ∧ ∃ descriptions,
        (recreated.manager.run nullLib exampleRuntime .listSession).2 = .ok (.array descriptions) ∧
          descriptions.map shownKey =
            keys.map fun key => (.string key.model_name, .string key.model_version) := by
  have hstart : Starts nullLib ⟨Manager.empty Heap.empty, []⟩ :=
    ⟨fun _ => exampleRuntime, [], Heap.empty, [], rfl, rfl, rfl⟩
  have hserves : ∀ server task, Serves nullLib server (served server task) :=
    fun _ task => ⟨exampleRuntime, task, rfl⟩
  have hreach : Reachable (Starts nullLib) (Serves nullLib) recreated :=
    .next (.next (.next (.start hstart) (hserves _ _)) (hserves _ _)) (hserves _ _)
  obtain ⟨keys, _, hkeys, hlist, _⟩ := registered_accounts hreach exampleRuntime
  refine ⟨rfl, rfl, keys, ?_, hlist⟩
  rcases hkeys Session.exampleKey with ⟨hmem, _⟩ | ⟨_, heq⟩
  · exact hmem
  · exact absurd heq (by decide)

end Server
end OnnxruntimeServer
