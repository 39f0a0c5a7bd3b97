import OnnxruntimeServer.PlainOptions
import OnnxruntimeServer.TcpConversation

namespace OnnxruntimeServer
set_option autoImplicit true
open Transition

variable {p q : Double → Prop} {strtod : Bytes → Double} {to_chars : Double → Bytes}

/-- The tensors that ONNX Runtime returns, read as the outputs that the model declares, have numbers
of some kind, and a step that C++ leaves undefined comes to no other value either. -/
structure Runtime.Answers (p : Double → Prop) (rt : Runtime) : Prop where
  outputs : ∀ ort_session names values asked tensors,
    rt.ort ort_session names values asked = .ok tensors → ∀ (i : Nat) info tensor,
      ort_session.outputs[i]? = some info → tensors[i]? = some tensor →
        ∀ v ∈ info.values tensor, v.AllFloats p
  undefined : ∀ value, rt.undefined = .ok value → value.Plain p

theorem sorted_values {info : ValueInfo} {tensor : OutputTensor} (hv : v ∈ info.values tensor) :
    v.KeysSorted := by
  rw [ValueInfo.values] at hv
  cases hp : info.element_type.put? with
  | none => simp [hp] at hv
  | some put =>
    simp only [hp] at hv
    obtain ⟨i, _, rfl⟩ := List.mem_map.1 hv
    have hcomplex : (complexJson tensor.real i).KeysSorted := by
      refine ⟨?_, trivial, trivial, trivial⟩
      apply List.pairwise_cons.2 ⟨?_, List.pairwise_singleton _ _⟩
      intro e he
      obtain rfl := List.mem_singleton.1 he
      change ascii "imag" < ascii "real"
      decide
    cases htype : info.element_type with
    | undefined =>
      rw [htype] at hp
      cases hp
    | complex64 | complex128 =>
      rw [htype] at hp
      cases hp
      exact hcomplex
    | _ =>
      rw [htype] at hp
      cases hp
      trivial

theorem mem_fitRow {values row : List Json} (h : fitRow values i n = .ok row) (hv : v ∈ row) :
    v ∈ values := by
  induction n generalizing i row with
  | zero =>
    obtain rfl := Except.ok.inj h
    cases hv
  | succ n ih =>
    rw [fitRow] at h
    cases hi : values[i]? with
    | none =>
      rw [hi] at h
      cases h
    | some value =>
      rw [hi] at h
      obtain ⟨rest, hrest, h⟩ := bind_eq_ok.1 h
      obtain rfl := Except.ok.inj h
      rcases List.mem_cons.1 hv with rfl | hv
      · exact List.mem_of_getElem? hi
      · exact ih hrest hv

theorem plain_fitRows {values rows : List Json} (h : fitRows values dim fuel i = .ok rows)
    (hplain : ∀ v ∈ values, v.Plain p) : ∀ row ∈ rows, row.Plain p := by
  induction fuel generalizing i rows with
  | zero =>
    rw [fitRows] at h
    split at h
    · obtain rfl := Except.ok.inj h
      exact List.forall_mem_nil _
    · cases h
  | succ fuel ih =>
    rw [fitRows] at h
    split at h
    · obtain rfl := Except.ok.inj h
      exact List.forall_mem_nil _
    · obtain ⟨row, hrow, h⟩ := bind_eq_ok.1 h
      obtain ⟨rest, hrest, h⟩ := bind_eq_ok.1 h
      obtain rfl := Except.ok.inj h
      rw [List.forall_mem_cons]
      exact ⟨Json.plain_array_iff.2 fun v hv => hplain v (mem_fitRow hrow hv), ih hrest⟩

theorem plain_valuesFitShape {values items : List Json}
    (h : valuesFitShape values shape depth = .ok items) (hplain : ∀ v ∈ values, v.Plain p) :
    ∀ item ∈ items, item.Plain p := by
  induction depth generalizing values with
  | zero => cases h
  | succ depth ih =>
    cases depth with
    | zero =>
      obtain rfl := Except.ok.inj h
      exact hplain
    | succ depth =>
      rw [valuesFitShape] at h
      cases hdim : shape[depth + 1]? with
      | none =>
        rw [hdim] at h
        cases h
      | some dim =>
        rw [hdim] at h
        obtain ⟨rows, hrows, h⟩ := bind_eq_ok.1 h
        exact ih h (plain_fitRows hrows hplain)

namespace ExecutionContext

theorem plain_putTensors {infos : List ValueInfo} {tensors : List OutputTensor}
    (h : putTensors infos tensors output = .ok result) (houtput : (Json.object output).Plain p)
    (hplain : ∀ (i : Nat) info tensor, infos[i]? = some info → tensors[i]? = some tensor →
      ∀ v ∈ info.values tensor, v.AllFloats p) : (Json.object result).Plain p := by
  induction infos generalizing tensors output with
  | nil =>
    cases tensors with
    | nil =>
      obtain rfl := Except.ok.inj h
      exact houtput
    | cons tensor tensors => cases h
  | cons info infos ih =>
    cases tensors with
    | nil =>
      obtain rfl := Except.ok.inj h
      exact houtput
    | cons tensor tensors =>
      obtain ⟨items, hdata, h⟩ := bind_eq_ok.1 h
      have hitems : ∀ item ∈ items, item.Plain p :=
        plain_valuesFitShape hdata fun v hv =>
          ⟨sorted_values hv, hplain 0 info tensor rfl rfl v hv⟩
      exact ih h (Json.plain_setMember houtput _ (Json.plain_array_iff.2 hitems))
        fun i => hplain (i + 1)

theorem run_ort {ctx ctx' : ExecutionContext} (h : ctx.run ort = some (.ok tensors, ctx')) :
    ctx'.session = ctx.session ∧ ∃ values, ort ctx.session.ort_session ctx.session.inputNames values
      ctx.session.outputNames = .ok tensors := by
  obtain ⟨⟨values, inputs⟩, _, h⟩ := Option.bind_eq_some_iff.1 h
  obtain ⟨hrun, rfl⟩ := Prod.mk.inj (Option.some.inj h)
  refine ⟨rfl, values, ?_⟩
  rw [Session.run] at hrun
  split at hrun
  · cases hrun
  · split at hrun
    · rename_i returned hort
      rw [hort, Except.ok.inj hrun]
    · cases hrun

end ExecutionContext

theorem Session.plain_typesJson (infos : List ValueInfo) : (typesJson infos).Plain p := by
  rw [typesJson]
  have h : (Json.object []).Plain p := Json.plain_empty
  generalize ([] : List (Bytes × Json)) = members at h
  induction infos generalizing members with
  | nil => exact h
  | cons info infos ih => exact ih _ (Json.plain_setMember h _ (Json.plain_string _))

theorem Session.plain_toJson {session : Session} (h : session.option.Plain p) :
    session.toJson.Plain p := by
  rw [toJson, Json.plain_object_iff]
  constructor
  · rw [← List.pairwise_map (f := Prod.fst) (R := (· < ·))]
    change List.Pairwise (· < ·) [ascii "created_at", ascii "execution_count", ascii "inputs",
      ascii "last_executed_at", ascii "model", ascii "option", ascii "outputs", ascii "version"]
    decide
  · simp only [List.forall_mem_cons]
    exact ⟨Json.plain_integer _, Json.plain_integer _, plain_typesJson _, Json.plain_integer _,
      Json.plain_string _, h, plain_typesJson _, Json.plain_string _, List.forall_mem_nil _⟩

variable {lib : JsonLibrary} {rt : Runtime} {env : OrtEnv} {manager manager' : Manager}

theorem values_congr {info info' : ValueInfo} (h : info.element_type = info'.element_type)
    (tensor : OutputTensor) : info.values tensor = info'.values tensor := by
  rw [ValueInfo.values, ValueInfo.values, h]

theorem Session.Plain.allFloats {session : Session} (hs : session.Plain p) (hrt : rt.Answers p)
    (hort : rt.ort session.ort_session names values asked = .ok tensors) (i : Nat)
    (hinfo : session.outputs[i]? = some info) (htensor : tensors[i]? = some tensor) :
    ∀ v ∈ info.values tensor, v.AllFloats p := by
  have htypes := congrArg (fun types => types[i]?) hs.outputs
  rw [List.getElem?_map, List.getElem?_map, hinfo] at htypes
  obtain ⟨declared, hdeclared, htype⟩ := Option.map_eq_some_iff.1 htypes.symm
  rw [← values_congr htype]
  exact hrt.outputs _ _ _ _ _ hort i declared tensor hdeclared htensor

theorem plain_execute {session : Session} (hs : session.Plain p) (hrt : rt.Answers p)
    (h : (execute lib rt session data heap).1 = .ok value) : value.Plain p := by
  rw [execute] at h
  cases hnew : ExecutionContext.new lib rt.createTensor session data heap with
  | mk made heap' =>
    rw [hnew] at h
    cases made with
    | error e => cases h
    | ok ctx =>
      cases henqueue : rt.enqueue with
      | error e =>
        rw [henqueue] at h
        cases h
      | ok _ =>
        rw [henqueue] at h
        dsimp only at h
        cases hrun : ctx.run rt.ort with
        | none =>
          rw [hrun] at h
          exact hrt.undefined value h
        | some ran =>
          obtain ⟨e | tensors, ctx'⟩ := ran
          · rw [hrun] at h
            cases h
          · rw [hrun] at h
            dsimp only at h
            cases hjson : ctx'.tensorsToJson tensors with
            | error fault =>
              rw [hjson] at h
              exact hrt.undefined value h
            | ok output =>
              rw [hjson] at h
              obtain rfl := Except.ok.inj h
              obtain ⟨_, _, rfl, _⟩ := ExecutionContext.new_ok hnew
              obtain ⟨hsession, values, hort⟩ := ExecutionContext.run_ort hrun
              obtain ⟨result, hput, hjson⟩ := bind_eq_ok.1 hjson
              obtain rfl := Except.ok.inj hjson
              rw [hsession] at hput
              apply ExecutionContext.plain_putTensors hput Json.plain_empty
              intro i info tensor hinfo htensor
              exact hs.allFloats hrt hort i hinfo htensor

namespace Task

def Sorted : Task → Prop
  | .createSession _ _ option _ => option.Plain fun _ => True
  | _ => True

theorem sorted_createSession {j : Json} (h : j.Plain fun _ => True)
    (hc : OnnxruntimeServer.createSession j post = .ok task) : task.Sorted := by
  obtain ⟨names, _, hc⟩ := bind_eq_ok.1 hc
  obtain rfl := Except.ok.inj hc
  exact (h.member _).objectOr

theorem sorted_createTask {j : Json} (h : j.Plain fun _ => True)
    (hc : createTask type j post = .ok task) : task.Sorted := by
  rw [createTask] at hc
  split_ifs at hc
  · obtain ⟨names, _, hc⟩ := bind_eq_ok.1 hc
    dsimp only at hc
    split at hc
    · obtain rfl := Except.ok.inj hc
      trivial
    · cases hc
  · obtain ⟨names, _, hc⟩ := bind_eq_ok.1 hc
    obtain rfl := Except.ok.inj hc
    trivial
  · exact sorted_createSession h hc
  · obtain ⟨names, _, hc⟩ := bind_eq_ok.1 hc
    obtain rfl := Except.ok.inj hc
    trivial
  · obtain rfl := Except.ok.inj hc
    trivial

end Task

theorem plain_parseRequestJson
    (h : parseRequestJson (Json.library strtod to_chars) body = .ok j) :
    j.Plain fun _ => True := by
  obtain ⟨doc, _, _, rfl⟩ := (parseRequestJson_library strtod to_chars body j).1 h
  exact ⟨Json.keysSorted_value doc, Json.allFloats_true _⟩

/-- The tasks that requests are made, over either transport. -/
inductive Received (lib : JsonLibrary) (task : Task) : Prop where
  | tcp (frame : Frame) (path : Bytes) (h : frame.task lib path = .ok task)
  | http (req : HttpRequest) (h : req.task lib = some (.ok task))

theorem sorted_frame {frame : Frame}
    (h : frame.task (Json.library strtod to_chars) path = .ok task) : task.Sorted := by
  obtain ⟨body, hbody, h⟩ := bind_eq_ok.1 h
  have hplain : body.Plain fun _ => True := by
    rw [Frame.body] at hbody
    split at hbody
    · obtain rfl := Except.ok.inj hbody
      exact Json.plain_empty
    · exact plain_parseRequestJson hbody
  split at h
  · obtain ⟨option, hoption, h⟩ := bind_eq_ok.1 h
    obtain ⟨json, hjson, h⟩ := bind_eq_ok.1 h
    have hjson := hplain.objectOr.assign
      ((hplain.objectOr.member _).assign (Json.plain_string path) hoption) hjson
    exact Task.sorted_createTask hjson h
  · exact Task.sorted_createTask hplain h

theorem sorted_request {req : HttpRequest}
    (h : req.task (Json.library strtod to_chars) = some (.ok task)) : task.Sorted := by
  rw [HttpRequest.task] at h
  split at h
  · obtain ⟨data, _, h⟩ := bind_eq_ok.1 (Option.some.inj h)
    obtain rfl := Except.ok.inj h
    trivial
  · obtain rfl := Except.ok.inj (Option.some.inj h)
    trivial
  · obtain rfl := Except.ok.inj (Option.some.inj h)
    trivial
  · split at h
    · split at h
      · obtain rfl := Except.ok.inj (Option.some.inj h)
        trivial
      · obtain ⟨request_json, hparse, h⟩ := bind_eq_ok.1 (Option.some.inj h)
        exact Task.sorted_createSession (plain_parseRequestJson hparse) h
      · cases h
    · cases h

theorem Received.sorted (h : Received (Json.library strtod to_chars) task) : task.Sorted := by
  cases h with
  | tcp frame path h => exact sorted_frame h
  | http req h => exact sorted_request h

namespace Manager

/-- Some client's request is made a task, and that is run. -/
def Receives (lib : JsonLibrary) (env : OrtEnv) (manager manager' : Manager) : Prop :=
  ∃ rt task, Received lib task ∧
    manager' = (manager.run lib (Runtime.withOrt rt lib.dumpFloat env) task).1

def ShowsPlain (p : Double → Prop) (manager : Manager) : Prop :=
  ∀ key session, manager.sessions.find key = some session → session.Plain p

theorem Prepared.showsPlain (h : Prepared lib env manager) : manager.ShowsPlain p := by
  obtain ⟨rt, prepare_model, heap, hprepare⟩ := h
  obtain ⟨models, hparse, hfold⟩ := bind_eq_ok.1 hprepare
  intro key session hf
  rcases (find_prepared hfold key session).1 hf with hf | ⟨model, hm, rfl, hload⟩
  · cases hf
  · have hoption : model.option.Plain p := plain_of_parse hparse hm
    exact load_plain hoption hload

theorem ShowsPlain.run {task : Task} (h : manager.ShowsPlain p) (ht : task.Sorted) :
    (manager.run lib (rt.withOrt lib.dumpFloat env) task).1.ShowsPlain p := by
  intro key session hf
  rcases run_find hf with ⟨before, hbefore, rfl | rfl⟩ | ⟨_, _, _, _, rfl, hload⟩
  · exact h key session hbefore
  · exact (h key before hbefore).touch _
  · exact load_plain ht hload

theorem plain_describe {call : Call} (h : (manager.describe lib rt call).1.ShowsPlain p)
    (hresult : (manager.describe lib rt call).2 = .ok value) : value.Plain p := by
  rw [describe] at h hresult
  cases call with
  | create name version option data =>
    rcases perform_create (rt.loader lib) name version option data manager.sessions with
      ⟨e, he⟩ | ⟨key, session, _, _, hnone, he⟩
    · rw [he] at hresult
      cases hresult
    · rw [he] at h hresult
      obtain rfl := Except.ok.inj hresult
      apply Session.plain_toJson (h key session _).option
      dsimp only
      rw [find_emplace hnone, if_pos rfl]
  | get name version =>
    rw [perform] at h hresult
    cases hkey : (Call.get name version).key with
    | error e =>
      rw [hkey] at hresult
      cases hresult
    | ok key =>
      rw [hkey] at h hresult
      dsimp only at h hresult
      cases hf : manager.sessions.find key with
      | none =>
        rw [hf] at hresult
        cases hresult
      | some session =>
        rw [hf] at h hresult
        obtain rfl := Except.ok.inj hresult
        exact Session.plain_toJson (h key session hf).option
  | remove name version =>
    rw [perform] at hresult
    cases hkey : (Call.remove name version).key with
    | error e =>
      rw [hkey] at hresult
      cases hresult
    | ok key =>
      rw [hkey] at hresult
      dsimp only at hresult
      cases hf : manager.sessions.find key with
      | none =>
        rw [hf] at hresult
        cases hresult
      | some session =>
        rw [hf] at hresult
        obtain rfl := Except.ok.inj hresult
        exact Json.plain_boolean true

/-- The results of tasks are maps with numbers of the kind that ONNX Runtime returns. -/
theorem plain_run {task : Task} (h : manager.ShowsPlain p) (ht : task.Sorted) (hrt : rt.Answers p)
    (hresult : (manager.run lib (rt.withOrt lib.dumpFloat env) task).2 = .ok value) :
    value.Plain p := by
  have hafter : (manager.run lib (rt.withOrt lib.dumpFloat env) task).1.ShowsPlain p := h.run ht
  cases task with
  | executeSession name version data =>
    rw [run, executeSession] at hresult
    split at hresult
    · cases hresult
    · split at hresult
      · cases hresult
      · rename_i session hf
        have hs := (h _ session hf).touch (Runtime.withOrt rt lib.dumpFloat env).now
        exact plain_execute hs ⟨hrt.outputs, hrt.undefined⟩ hresult
  | listSession =>
    obtain rfl := Except.ok.inj hresult
    rw [Json.plain_array_iff]
    intro item hitem
    obtain ⟨e, he, rfl⟩ := List.mem_map.1 hitem
    exact Session.plain_toJson (h e.1 e.2 ((OrderedMap.mem_iff_find _).1 he)).option
  | _ => exact plain_describe hafter hresult

end Manager
end OnnxruntimeServer
