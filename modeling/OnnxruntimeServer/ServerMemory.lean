import OnnxruntimeServer.ContextBuffers
import OnnxruntimeServer.Startup

namespace OnnxruntimeServer
set_option autoImplicit true
open Transition

namespace ExecutionContext
variable {inputs inputs' : List (Bytes × InputValue)}

theorem mem_owned_cons (e : Bytes × InputValue) :
    n ∈ owned (e :: inputs) ↔ n ∈ e.2.address :: e.2.deallocators ∨ n ∈ owned inputs := by
  rw [owned, List.flatMap_cons, List.mem_append]
  rfl

theorem owned_of_find {value : InputValue} (hf : findInput inputs name = some value)
    (hn : n ∈ value.address :: value.deallocators) : n ∈ owned inputs := by
  obtain ⟨e, he, rfl⟩ := Option.map_eq_some_iff.1 hf
  exact List.mem_flatMap.2 ⟨e, List.mem_of_find?_eq_some he, hn⟩

theorem owned_taken {value taken : InputValue} (hf : findInput inputs name = some value)
    (ht : taken.address :: taken.deallocators = value.address :: value.deallocators) :
    n ∈ owned (Json.setMember name taken inputs) ↔ n ∈ owned inputs := by
  induction inputs with
  | nil => cases hf
  | cons e inputs ih =>
    rw [Json.setMember]
    split_ifs with hlt heq
    · rw [mem_owned_cons, ht]
      exact ⟨fun hn => hn.elim (owned_of_find hf) id, .inr⟩
    · rw [findInput, List.find?_cons, decide_eq_true heq.symm] at hf
      obtain rfl := Option.some.inj hf
      rw [mem_owned_cons, mem_owned_cons, ht]
    · rw [findInput, List.find?_cons, decide_eq_false (Ne.symm heq)] at hf
      rw [mem_owned_cons, mem_owned_cons, ih hf]

theorem owned_takeTensors (h : takeTensors infos inputs = some (tensors, inputs')) :
    n ∈ owned inputs' ↔ n ∈ owned inputs := by
  induction infos generalizing inputs tensors with
  | nil =>
    obtain ⟨_, rfl⟩ := Prod.mk.inj (Option.some.inj h)
    rfl
  | cons info infos ih =>
    obtain ⟨value, hf, h⟩ := Option.bind_eq_some_iff.1 h
    obtain ⟨⟨rest, after⟩, htake, h⟩ := Option.bind_eq_some_iff.1 h
    obtain ⟨_, rfl⟩ := Prod.mk.inj (Option.some.inj h)
    rw [ih htake]
    exact owned_taken hf rfl

theorem run_delete_live {ctx ctx' : ExecutionContext} (h : ctx.run ort = some (result, ctx'))
    (heap : Heap) : (ctx'.delete heap).live = (ctx.delete heap).live := by
  obtain ⟨⟨values, after⟩, htake, h⟩ := Option.bind_eq_some_iff.1 h
  obtain ⟨_, rfl⟩ := Prod.mk.inj (Option.some.inj h)
  ext n
  rw [delete_live, delete_live, owned_takeTensors htake]

end ExecutionContext

/-- The names of the inputs of a session differ. -/
def Session.Distinct (session : Session) : Prop := (session.inputs.map ValueInfo.name).Nodup

/-- What ONNX Runtime opens is a model, whose inputs have names of their own. -/
def Runtime.OpensModels (rt : Runtime) : Prop :=
  (∀ data option opened, rt.openData data option = .ok opened →
      (opened.2.inputs.map ValueInfo.name).Nodup) ∧
    ∀ path option opened, rt.openPath path option = .ok opened →
      (opened.2.inputs.map ValueInfo.name).Nodup

/-- The outputs of a run are no tensors that `tensors_to_json` could read, which C++ leaves
undefined. -/
def Session.Unreadable (lib : JsonLibrary) (rt : Runtime) (session : Session) (data : Json)
    (heap : Heap) : Prop :=
  ∃ ctx heap' result ctx' fault,
    ExecutionContext.new lib rt.createTensor session data heap = (.ok ctx, heap') ∧
      ctx.run rt.ort = some (.ok result, ctx') ∧ ctx'.tensorsToJson result = .error fault

/-- The constructor of the context throws, but not before it has made a buffer. -/
def Session.RejectsLate (lib : JsonLibrary) (rt : Runtime) (session : Session) (data : Json)
    (heap : Heap) : Prop :=
  (∃ e, (ExecutionContext.new lib rt.createTensor session data heap).1 = .error e) ∧
    ¬ ExecutionContext.RejectedAtOnce lib session.inputs data

variable {lib : JsonLibrary} {rt : Runtime} {session : Session} {data : Json} {heap : Heap}

theorem live_of_new_error
    (h : (ExecutionContext.new lib rt.createTensor session data heap).1 = .error e) :
    heap.live ⊆ (ExecutionContext.new lib rt.createTensor session data heap).2.live ∧
      ((ExecutionContext.new lib rt.createTensor session data heap).2.live = heap.live ↔
        ExecutionContext.RejectedAtOnce lib session.inputs data) := by
  cases hd : datasetOf lib data with
  | error e =>
    rw [ExecutionContext.new, hd]
    exact ⟨Finset.Subset.refl _, iff_of_true rfl (.dataset hd)⟩
  | ok dataset =>
    rw [ExecutionContext.new_heap hd]
    refine ⟨ExecutionContext.subset_makeInputs rt.createTensor dataset session.inputs [] heap, ?_⟩
    cases hinputs : session.inputs with
    | nil =>
      rw [ExecutionContext.new, hd] at h
      simp [hinputs, ExecutionContext.makeInputs] at h
    | cons input rest =>
      rw [ExecutionContext.makeInputs_live_iff, ExecutionContext.prepareInput_error_iff, or_assoc]
      constructor
      · exact fun hcause => .firstInput hd rfl hcause
      · intro hrej
        cases hrej with
        | dataset hd' =>
          rw [hd] at hd'
          cases hd'
        | firstInput hd' hin hcause =>
          rw [hd] at hd'
          cases hd'
          cases hin
          exact hcause

/-- An execution gives everything back but where the constructor of its context throws late. -/
theorem execute_live (hs : session.Initialized) (hn : session.Distinct)
    (hr : ¬ session.Unreadable lib rt data heap) :
    heap.live ⊆ (execute lib rt session data heap).2.live ∧
      ((execute lib rt session data heap).2.live = heap.live ↔
        ¬ session.RejectsLate lib rt data heap) := by
  rw [execute]
  cases hnew : ExecutionContext.new lib rt.createTensor session data heap with
  | mk made heap' =>
    cases made with
    | error e =>
      have herror : (ExecutionContext.new lib rt.createTensor session data heap).1 = .error e := by
        rw [hnew]
      obtain ⟨hsub, hlive⟩ := live_of_new_error herror
      rw [hnew] at hsub hlive
      refine ⟨hsub, hlive.trans ?_⟩
      rw [Session.RejectsLate, not_and, not_not]
      exact ⟨fun h _ => h, fun h => h ⟨e, herror⟩⟩
    | ok ctx =>
      have hback := ExecutionContext.new_delete_live hnew hn
      have hlate : ¬ session.RejectsLate lib rt data heap := by
        rintro ⟨⟨e, he⟩, _⟩
        rw [hnew] at he
        cases he
      obtain ⟨_, _, _, _, _, hrun⟩ := ExecutionContext.run_of_new hs hn hnew
      obtain ⟨ctx', hrun⟩ := hrun rt.ort
      have hdeleted : ∀ heap₁ : Heap, heap₁.live = heap.live →
          heap.live ⊆ heap₁.live ∧ (heap₁.live = heap.live ↔
            ¬ session.RejectsLate lib rt data heap) := by
        intro heap₁ h
        exact ⟨h.symm.subset, iff_of_true h hlate⟩
      cases henqueue : rt.enqueue with
      | error e =>
        exact hdeleted _ hback
      | ok _ =>
        simp only [hrun]
        have hafter := (ExecutionContext.run_delete_live hrun heap').trans hback
        cases hort : ExecutionContext.ofOrt (rt.ort session.ort_session session.inputNames _
            session.outputNames) with
        | error e =>
          exact hdeleted _ hafter
        | ok result =>
          rw [hort] at hrun
          cases hjson : ctx'.tensorsToJson result with
          | error fault => exact absurd ⟨ctx, heap', result, ctx', fault, hnew, hrun, hjson⟩ hr
          | ok output =>
            simp only [hjson]
            exact hdeleted _ hafter

theorem distinct_of_init
    (h : Session.init dumpFloat key option created_at ort_session = .ok session)
    (hn : (ort_session.inputs.map ValueInfo.name).Nodup) : session.Distinct := by
  rw [Session.init] at h
  obtain ⟨inputs, hinputs, h⟩ := bind_eq_ok.1 h
  obtain ⟨outputs, _, h⟩ := bind_eq_ok.1 h
  obtain rfl := Except.ok.inj h
  rw [Session.Distinct, Session.map_name hinputs]
  exact hn

theorem load_distinct (hrt : rt.OpensModels)
    (h : load (rt.loader lib) name version option key source = .ok session) : session.Distinct := by
  obtain ⟨opened, ⟨data, hopened⟩ | ⟨path, hopened⟩, hinit⟩ := load_opened h
  · exact distinct_of_init hinit (hrt.1 _ _ _ hopened)
  · exact distinct_of_init hinit (hrt.2 _ _ _ hopened)

namespace Manager
variable {manager manager' : Manager}

def Distinct (manager : Manager) : Prop :=
  ∀ key session, manager.sessions.find key = some session → session.Distinct

def Executing (p : Session → Json → Heap → Prop) (rt : Runtime) (manager : Manager) (task : Task) :
    Prop :=
  match task with
  | .executeSession name version data => ∃ key session, sessionKey name version = .ok key ∧
      manager.sessions.find key = some session ∧ p (session.touch rt.now) data manager.heap
  | _ => False

def Unreadable (lib : JsonLibrary) (rt : Runtime) : Manager → Task → Prop :=
  Executing (Session.Unreadable lib rt) rt

def RejectsLate (lib : JsonLibrary) (rt : Runtime) : Manager → Task → Prop :=
  Executing (Session.RejectsLate lib rt) rt

theorem describe_heap (lib : JsonLibrary) (rt : Runtime) (call : Call) (manager : Manager) :
    (manager.describe lib rt call).1.heap = manager.heap := by
  rw [describe]
  rcases perform (rt.loader lib) call manager.sessions with ⟨ret, sessions⟩
  cases ret with
  | found session => cases session <;> rfl
  | _ => rfl

/-- A task leaves an object behind when it executes a session and is rejected late, and otherwise
nothing. -/
theorem run_live {task : Task} (hready : manager.Ready) (hdistinct : manager.Distinct)
    (hr : ¬ manager.Unreadable lib rt task) :
    manager.heap.live ⊆ (manager.run lib rt task).1.heap.live ∧
      ((manager.run lib rt task).1.heap.live = manager.heap.live ↔
        ¬ manager.RejectsLate lib rt task) := by
  have hsame : ∀ heap : Heap, heap = manager.heap → ¬ manager.RejectsLate lib rt task →
      manager.heap.live ⊆ heap.live ∧
        (heap.live = manager.heap.live ↔ ¬ manager.RejectsLate lib rt task) := by
    rintro heap rfl hlate
    exact ⟨Finset.Subset.refl _, iff_of_true rfl hlate⟩
  cases task with
  | executeSession name version data =>
    rw [run, executeSession]
    cases hkey : sessionKey name version with
    | error e =>
      apply hsame manager.heap rfl
      rintro ⟨key, session, hk, _⟩
      rw [hkey] at hk
      cases hk
    | ok key =>
      cases hf : manager.sessions.find key with
      | none =>
        simp only [hf]
        refine ⟨Finset.Subset.refl _, iff_of_true trivial ?_⟩
        rintro ⟨key', session, hk, hfound, _⟩
        obtain rfl := Except.ok.inj (hkey.symm.trans hk)
        rw [hf] at hfound
        cases hfound
      | some session =>
        simp only [hf]
        have hiff : ∀ p : Session → Json → Heap → Prop,
            Executing p rt manager (.executeSession name version data) ↔
              p (session.touch rt.now) data manager.heap := by
          intro p
          constructor
          · rintro ⟨key', session', hk, hfound, hp⟩
            obtain rfl := Except.ok.inj (hkey.symm.trans hk)
            obtain rfl := Option.some.inj (hf.symm.trans hfound)
            exact hp
          · exact fun hp => ⟨key, session, hkey, hf, hp⟩
        rw [RejectsLate, hiff]
        rw [Unreadable, hiff] at hr
        exact execute_live ((hready key session hf).touch rt.now) (hdistinct key session hf) hr
  | listSession => exact hsame manager.heap rfl id
  | _ => exact hsame _ (describe_heap lib rt _ manager) id

theorem Distinct.run {task : Task} (h : manager.Distinct) (hrt : rt.OpensModels) :
    (manager.run lib rt task).1.Distinct := by
  intro key session hf
  rcases run_find hf with ⟨before, hbefore, rfl | rfl⟩ | ⟨_, _, _, _, _, hload⟩
  · exact h key session hbefore
  · exact h key before hbefore
  · exact load_distinct hrt hload

theorem heap_prepared {rt : SessionKey → Runtime} {models : List SessionKeyWithOption}
    (h : models.foldlM (prepare lib rt) manager = .ok manager') :
    manager'.heap = manager.heap := by
  induction models generalizing manager with
  | nil =>
    obtain rfl := Except.ok.inj h
    rfl
  | cons model models ih =>
    obtain ⟨manager₁, hprepare, h⟩ := bind_eq_ok.1 h
    obtain ⟨_, _, _, rfl⟩ := prepare_ok_iff.1 hprepare
    have hrest := ih h
    exact hrest

end Manager

/-- A server, and how many requests it has rejected late. -/
structure Metered where
  manager : Manager
  late : Nat

namespace Metered

/-- `main` has prepared the models. -/
def Starts (lib : JsonLibrary) (server : Metered) : Prop :=
  ∃ (rt : SessionKey → Runtime) (prepare_model : Bytes), (∀ key, (rt key).OpensModels) ∧
    (Manager.empty Heap.empty).prepareModels lib rt prepare_model = .ok server.manager ∧
    server.late = 0

/-- Some client's task is run, and is no step that C++ leaves undefined. -/
def Serves (lib : JsonLibrary) (server server' : Metered) : Prop :=
  ∃ rt task, rt.OpensModels ∧ ¬ server.manager.Unreadable lib rt task ∧
    server'.manager = (server.manager.run lib rt task).1 ∧
    (server.manager.RejectsLate lib rt task ∧ server'.late = server.late + 1 ∨
      ¬ server.manager.RejectsLate lib rt task ∧ server'.late = server.late)

/-- What is live is at least one object for each request that was rejected late, and nothing
else. -/
structure Charged (server : Metered) : Prop where
  ready : server.manager.Ready
  distinct : server.manager.Distinct
  late_le : server.late ≤ server.manager.heap.live.card
  empty_iff : server.manager.heap.live = ∅ ↔ server.late = 0

variable {server server' : Metered}

theorem Starts.charged (h : server.Starts lib) : server.Charged := by
  obtain ⟨rt, prepare_model, hrt, hprepare, hlate⟩ := h
  obtain ⟨models, _, hfold⟩ := bind_eq_ok.1 hprepare
  have hheap := Manager.heap_prepared hfold
  have hempty : server.manager.heap.live = ∅ := by
    rw [hheap]
    rfl
  have hfind := Manager.find_prepared hfold
  refine ⟨?_, ?_, ?_, iff_of_true hempty hlate⟩
  · intro key session hf
    rcases (hfind key session).1 hf with hf | ⟨model, _, _, hload⟩
    · cases hf
    · exact (load_ok hload).1
  · intro key session hf
    rcases (hfind key session).1 hf with hf | ⟨model, _, _, hload⟩
    · cases hf
    · exact load_distinct (hrt model.key) hload
  · rw [hlate]
    exact Nat.zero_le _

/-- A task keeps what is live, and adds to it exactly where it is counted. -/
theorem Charged.keeps (h : server.Charged) (hs : Serves lib server server') :
    server.manager.heap.live ⊆ server'.manager.heap.live ∧
      (server'.manager.heap.live = server.manager.heap.live ↔ server'.late = server.late) := by
  obtain ⟨rt, task, _, hr, hmanager, hlate⟩ := hs
  obtain ⟨hsub, hlive⟩ := Manager.run_live h.ready h.distinct hr
  rw [← hmanager] at hsub hlive
  refine ⟨hsub, hlive.trans ?_⟩
  rcases hlate with ⟨hlate, hcount⟩ | ⟨hlate, hcount⟩
  · exact iff_of_false (not_not.2 hlate) (by omega)
  · exact iff_of_true hlate hcount

theorem Charged.serves (h : server.Charged) (hs : Serves lib server server') :
    server'.Charged := by
  obtain ⟨hsub, hlive⟩ := h.keeps hs
  obtain ⟨rt, task, hrt, hr, hmanager, hlate⟩ := hs
  have hready : (server.manager.run lib rt task).1.Ready := h.ready.run task
  have hdistinct : (server.manager.run lib rt task).1.Distinct := h.distinct.run hrt
  rw [← hmanager] at hready hdistinct
  rcases hlate with ⟨_, hcount⟩ | ⟨_, hcount⟩
  · have hne : server.manager.heap.live ≠ server'.manager.heap.live := by
      intro heq
      have hsame := hlive.1 heq.symm
      omega
    have hcard := Finset.card_lt_card (hsub.ssubset_of_ne hne)
    have hle := h.late_le
    refine ⟨hready, hdistinct, by omega, iff_of_false ?_ (by omega)⟩
    intro hempty
    rw [hempty, Finset.card_empty] at hcard
    exact Nat.not_lt_zero _ hcard
  · refine ⟨hready, hdistinct, ?_, ?_⟩
    · rw [hlive.2 hcount, hcount]
      exact h.late_le
    · rw [hlive.2 hcount, hcount]
      exact h.empty_iff

/-- From the start of the server on, whatever clients ask for, the server has let go of every input
value and every buffer unless some request was rejected after a buffer of it was made. It keeps at
least one object for each such request, and no other task, successful or not, leaves any. -/
theorem keeps_rejected (h : Reachable (Starts lib) (Serves lib) server) :
    server.late ≤ server.manager.heap.live.card ∧
      (server.manager.heap.live = ∅ ↔ server.late = 0) ∧
      ∀ server', Serves lib server server' →
        server.manager.heap.live ⊆ server'.manager.heap.live ∧
          (server'.manager.heap.live = server.manager.heap.live ↔ server'.late = server.late) := by
  have hcharged : server.Charged :=
    h.invariant (fun _ => Starts.charged) fun _ _ _ hinv hs => hinv.serves hs
  exact ⟨hcharged.late_le, hcharged.empty_iff, fun _ hs => hcharged.keeps hs⟩

def int64Runtime : Runtime :=
  { exampleRuntime with
    openData _ _ := .ok (.object [], ⟨0, [⟨ascii "X", .int64, [-1], []⟩], []⟩) }

theorem opensModels_int64 : int64Runtime.OpensModels := by
  constructor
  · intro data option opened h
    obtain rfl := Except.ok.inj h
    exact List.nodup_singleton _
  · intro path option opened h
    obtain rfl := Except.ok.inj h
    exact List.nodup_nil

def int64Created : Manager :=
  ((Manager.empty Heap.empty).run Server.nullLib int64Runtime Server.firstCreate).1

def mixedData : Json := .object [(ascii "X", .array [.unsigned 1, .string (ascii "x")])]

def mixedExecute : Task := .executeSession (ascii "m") (ascii "1") mixedData

def mixedServer : Metered :=
  ⟨(int64Created.run Server.nullLib int64Runtime mixedExecute).1, 1⟩

theorem keeps_rejected_mixed : mixedServer.late = 1 ∧ int64Created.heap.live = ∅ ∧
    int64Created.heap.live ⊂ mixedServer.manager.heap.live ∧
    1 ≤ mixedServer.manager.heap.live.card := by
  have hstart : Starts Server.nullLib ⟨Manager.empty Heap.empty, 0⟩ :=
    ⟨fun _ => int64Runtime, [], fun _ => opensModels_int64, rfl, rfl⟩
  have hcreated : Serves Server.nullLib ⟨Manager.empty Heap.empty, 0⟩ ⟨int64Created, 0⟩ :=
    ⟨int64Runtime, Server.firstCreate, opensModels_int64, id, rfl, .inr ⟨id, rfl⟩⟩
  have hfound : ∃ session e, int64Created.sessions.find Session.exampleKey = some session ∧
      (ExecutionContext.new Server.nullLib int64Runtime.createTensor
        (session.touch int64Runtime.now) mixedData int64Created.heap).1 = .error e ∧
      (ExecutionContext.new Server.nullLib int64Runtime.createTensor
        (session.touch int64Runtime.now) mixedData int64Created.heap).2.live ≠
          int64Created.heap.live := ⟨_, _, rfl, rfl, by decide⟩
  obtain ⟨session, e, hf, herror, hlive⟩ := hfound
  have hkey : sessionKey (ascii "m") (ascii "1") = .ok Session.exampleKey :=
    sessionKey_ok.2 ⟨rfl, rfl⟩
  have hlate : int64Created.RejectsLate Server.nullLib int64Runtime mixedExecute :=
    ⟨Session.exampleKey, session, hkey, hf, ⟨e, herror⟩,
      fun hrej => hlive ((live_of_new_error herror).2.2 hrej)⟩
  have hdefined : ¬ int64Created.Unreadable Server.nullLib int64Runtime mixedExecute := by
    rintro ⟨key, session', hk, hfound, ctx, heap, _, _, _, hnew, _⟩
    obtain rfl := Except.ok.inj (hkey.symm.trans hk)
    obtain rfl := Option.some.inj (hf.symm.trans hfound)
    rw [hnew] at herror
    cases herror
  have hexecuted : Serves Server.nullLib ⟨int64Created, 0⟩ mixedServer :=
    ⟨int64Runtime, mixedExecute, opensModels_int64, hdefined, rfl, .inl ⟨hlate, rfl⟩⟩
  obtain ⟨_, hempty, hkeeps⟩ := keeps_rejected (.next (.start hstart) hcreated)
  obtain ⟨hsub, hsame⟩ := hkeeps mixedServer hexecuted
  have hne : int64Created.heap.live ≠ mixedServer.manager.heap.live := by
    intro heq
    cases hsame.1 heq.symm
  exact ⟨rfl, hempty.2 rfl, hsub.ssubset_of_ne hne,
    (keeps_rejected (.next (.next (.start hstart) hcreated) hexecuted)).1⟩

end Metered
end OnnxruntimeServer
