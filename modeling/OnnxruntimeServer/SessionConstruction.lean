import OnnxruntimeServer.Extensions
import OnnxruntimeServer.Startup
import OnnxruntimeServer.SessionOptionsEcho

namespace OnnxruntimeServer
set_option autoImplicit true
open FirstOccurrences Transition

/-- ONNX Runtime's interface to the options of a session: which setter calls it takes, whether it
loads a library, and the CUDA provider, if there is one and the server is built with it. -/
structure OrtApi where
  accepts : SetterCall → Bool
  registerCustomOpsLibrary : Bytes → OrtStatus
  has_cuda : Bool
  cuda : Option CudaApi

/-- What `Ort::SessionOptions` has been told. -/
structure OrtOptions where
  calls : List SetterCall
  libraries : List Bytes
  cuda : Option (Except Exception (List (Bytes × Bytes)))

/-- The options of a session after the first part of its constructor, and `_option`. -/
structure BuiltOptions where
  session_options : OrtOptions
  option : Json

/-- `register_extension`. -/
def registerExtension (api : OrtApi) (path : Bytes) : Except Exception Unit :=
  match api.registerCustomOpsLibrary (cString path) with
  | some err => .error (exception .runtimeError
      (ascii "Failed to register ORT extensions (" ++ path ++ ascii "): " ++ errorMessage err))
  | none => .ok ()

/-- The calls for `session_options`, and what is echoed of them. -/
def appliedOptions (api : OrtApi) (option : Json) : List SetterCall × Json :=
  match option.find (ascii "session_options") with
  | some (.object members) => applySessionOptions (fun _ => api.accepts) (.object members)
  | _ => ([], .object [])

def extensionPaths (option : Json) : List Bytes :=
  match collectExtensions option with
  | .array items => items.map Json.getString
  | _ => []

/-- Whether the option asks for CUDA. -/
def wantsCuda (api : OrtApi) (option : Json) : Bool :=
  api.has_cuda && match option.find (ascii "cuda") with
    | none => false
    | some (.boolean b) => b
    | some _ => true

def appendCuda (api : OrtApi) (dumpFloat : Double → Bytes) (option : Json) :
    Except Exception Json :=
  match api.cuda with
  | some cuda => appendCudaSessionOptions cuda dumpFloat option
  | none => .error (exception .runtimeError (ascii "CUDA is not supported"))

/-- A shape is kept in `_option` until `init` has used it. -/
def keepShape (option_key : Bytes) (option echo : Json) : Json :=
  match option.find option_key with
  | some (.object members) => echo.set option_key (.object members)
  | _ => echo

/-- `_option` with what is echoed of `session_options` and of the extensions. -/
def echoedOptions (applied : Json) (paths : List Bytes) : Json :=
  let echo := Json.object [(ascii "cuda", .boolean false)]
  let echo := if applied.members.isEmpty then echo
    else echo.set (ascii "session_options") applied
  if paths.isEmpty then echo else echo.set (ascii "extensions") (.array (paths.map .string))

/-- The constructor of `session` that the other two call first. -/
def newOptions (api : OrtApi) (dumpFloat : Double → Bytes) (option : Json) :
    Except Exception BuiltOptions := do
  let applied := appliedOptions api option
  let paths := extensionPaths option
  paths.forM (registerExtension api)
  let echo := echoedOptions applied.2 paths
  let echo ← if wantsCuda api option then do
      let cuda ← appendCuda api dumpFloat option
      .ok (echo.set (ascii "cuda") cuda)
    else .ok echo
  let updates := if wantsCuda api option then
      some ((cudaUpdates dumpFloat (option.member (ascii "cuda"))).map passedUpdates)
    else none
  .ok ⟨⟨applied.1, paths, updates⟩,
    keepShape (ascii "output_shape") option (keepShape (ascii "input_shape") option echo)⟩

/-- What `init` leaves of `_option`. -/
def BuiltOptions.echo (built : BuiltOptions) : Json :=
  (built.option.erase (ascii "input_shape")).erase (ascii "output_shape")

/-- ONNX Runtime behind the constructors of `session`: how it opens a model with some options. -/
structure OrtEnv where
  api : OrtApi
  openData : Bytes → OrtOptions → Except Exception OrtSession
  openPath : Bytes → OrtOptions → Except Exception OrtSession

/-- The constructors of `session` up to `init`. -/
def Runtime.withOrt (rt : Runtime) (dumpFloat : Double → Bytes) (env : OrtEnv) : Runtime :=
  { rt with
    openData := fun model_data option => do
      let built ← newOptions env.api dumpFloat option
      let ort_session ← env.openData model_data built.session_options
      .ok (built.option, ort_session)
    openPath := fun path option => do
      let built ← newOptions env.api dumpFloat option
      let ort_session ← env.openPath path built.session_options
      .ok (built.option, ort_session) }

theorem run_echo (accepts : SetterCall → Bool) (input : Json) (hb : block ∈ blocks) :
    block.run (fun _ => accepts) (applySessionOptions (fun _ => accepts) input).2 =
      block.run (fun _ => accepts) input := by
  apply blocks_stable accepts block hb
  intro k hk
  rw [applySessionOptions_eq]
  exact find_echo input (fun b hb input e he => (blocks_document _ b hb input e he).1)
    blocks_disjoint hb hk

theorem applySessionOptions_again (accepts : SetterCall → Bool) (input : Json) :
    applySessionOptions (fun _ => accepts) (applySessionOptions (fun _ => accepts) input).2 =
      applySessionOptions (fun _ => accepts) input := by
  have hecho : ∀ block ∈ blocks, block.run (fun _ => accepts)
      (applySessionOptions (fun _ => accepts) input).2 = block.run (fun _ => accepts) input :=
    fun _ hb => run_echo accepts input hb
  generalize (applySessionOptions (fun _ => accepts) input).2 = echo at hecho ⊢
  have hcalls := List.flatMap_congr fun block hb => congrArg Applied.calls (hecho block hb)
  have hentries := List.flatMap_congr fun block hb => congrArg Applied.entries (hecho block hb)
  rw [applySessionOptions_eq, applySessionOptions_eq, hcalls, hentries]

theorem putMembers_object (members entries : List (Bytes × Json)) :
    ∃ members', putMembers (.object members) entries = .object members' := by
  induction entries generalizing members with
  | nil => exact ⟨members, rfl⟩
  | cons e entries ih => exact ih (Json.setMember e.1 e.2 members)

theorem appliedOptions_object (api : OrtApi) (option : Json) :
    ∃ members, (appliedOptions api option).2 = .object members := by
  rw [appliedOptions]
  split
  · rw [applySessionOptions_eq]
    exact putMembers_object [] _
  · exact ⟨[], rfl⟩

theorem appliedOptions_again {echo : Json}
    (h : echo.find (ascii "session_options") =
      if (appliedOptions api option).2.members.isEmpty then none
      else some (appliedOptions api option).2) :
    appliedOptions api echo = appliedOptions api option := by
  have hagain : applySessionOptions (fun _ => api.accepts) (appliedOptions api option).2 =
      appliedOptions api option := by
    rw [appliedOptions]
    split
    · exact applySessionOptions_again api.accepts _
    · rfl
  obtain ⟨members, hmembers⟩ := appliedOptions_object api option
  rw [hmembers] at h hagain
  cases members with
  | nil =>
    rw [appliedOptions, h, ← hagain]
    rfl
  | cons e members =>
    rw [appliedOptions, h]
    exact hagain

theorem extensionPaths_eq (option : Json) :
    extensionPaths option = (namedPaths option).eraseDups := by
  rw [extensionPaths, collectExtensions_paths]
  dsimp only
  rw [List.map_map]
  exact List.map_id _

theorem extensionPaths_again {echo : Json}
    (h : echo.find (ascii "extensions") = if (extensionPaths option).isEmpty then none
      else some (.array ((extensionPaths option).map .string)))
    (hlegacy : echo.find (ascii "ortextensions_path") = none) :
    extensionPaths echo = extensionPaths option := by
  have hnamed : namedPaths echo = extensionPaths option := by
    rw [namedPaths, legacyPaths, hlegacy, List.append_nil, arrayPaths, h]
    cases hpaths : extensionPaths option with
    | nil => rfl
    | cons path paths => exact strings_map (path :: paths)
  rw [extensionPaths_eq echo, hnamed, eraseDups_of_nodup]
  rw [extensionPaths_eq]
  exact nodup_eraseDups _

theorem find_echoedOptions (applied : Json) (paths : List Bytes) (key : Bytes) :
    (echoedOptions applied paths).find key =
      if ascii "extensions" = key ∧ paths.isEmpty = false then some (.array (paths.map .string))
      else if ascii "session_options" = key ∧ applied.members.isEmpty = false then some applied
      else if ascii "cuda" = key then some (.boolean false)
      else none := by
  have hcuda : (Json.object [(ascii "cuda", .boolean false)]).find key =
      if ascii "cuda" = key then some (.boolean false) else none := by
    rw [Json.find_object]
    by_cases hk : ascii "cuda" = key <;> simp [hk]
  rw [echoedOptions]
  cases paths.isEmpty <;> cases applied.members.isEmpty <;>
    simp [Json.find_set, hcuda]

namespace Json

theorem erase_set (j : Json) (key : Bytes) (value : Json) :
    (j.set key value).erase key = .object (j.members.filter fun e => e.1 ≠ key) := by
  rw [set, erase]
  apply congrArg Json.object
  generalize j.members = members
  induction members with
  | nil => simp [setMember]
  | cons e members ih =>
    rw [setMember]
    split_ifs with hlt heq
    · simp
    · simp [heq]
    · rw [List.filter_cons, List.filter_cons, ih]

theorem erase_comm (j : Json) (key key' : Bytes) :
    (j.erase key).erase key' = (j.erase key').erase key := by
  cases j with
  | object members => exact congrArg Json.object (List.filter_comm ..)
  | _ => rfl

theorem erase_of_find {j : Json} (h : j.find key = none) : j.erase key = j := by
  cases j with
  | object members =>
    rw [find_object, Option.map_eq_none_iff, List.find?_eq_none] at h
    apply congrArg Json.object
    apply List.filter_eq_self.2
    intro e he
    simpa using h e he
  | _ => rfl

theorem find_erase_of_ne (j : Json) (h : key ≠ erased) : (j.erase erased).find key = j.find key := by
  cases j with
  | object members =>
    rw [erase, find_object, find_object, List.find?_filter]
    apply congrArg (Option.map Prod.snd)
    apply congrArg (fun p => List.find? p members)
    funext e
    by_cases he : e.1 = key
    · simp [he, h]
    · simp [he]
  | _ => rfl

theorem find_erase_self (j : Json) (key : Bytes) : (j.erase key).find key = none := by
  cases j with
  | object members =>
    rw [erase, find_object, Option.map_eq_none_iff, List.find?_eq_none]
    intro e he
    simpa using (List.mem_filter.1 he).2
  | _ => rfl

end Json

theorem erase_keepShape (key : Bytes) (option : Json) (members : List (Bytes × Json)) :
    (keepShape key option (.object members)).erase key = (Json.object members).erase key := by
  rw [keepShape]
  split
  · exact Json.erase_set _ key _
  · rfl

theorem keepShape_object (key : Bytes) (option : Json) (members : List (Bytes × Json)) :
    ∃ members', keepShape key option (.object members) = .object members' := by
  rw [keepShape]
  split
  · exact ⟨_, rfl⟩
  · exact ⟨_, rfl⟩

theorem echoedOptions_object (applied : Json) (paths : List Bytes) :
    ∃ members, echoedOptions applied paths = .object members := by
  rw [echoedOptions]
  split_ifs <;> exact ⟨_, rfl⟩

theorem find_echoedOptions_shape (applied : Json) (paths : List Bytes) (key : Bytes)
    (h : key ∈ [ascii "input_shape", ascii "output_shape", ascii "ortextensions_path"]) :
    (echoedOptions applied paths).find key = none := by
  rw [find_echoedOptions]
  simp only [List.mem_cons, List.not_mem_nil, or_false] at h
  obtain rfl | rfl | rfl := h <;> rfl

theorem keepShape_of_find (h : option.find key = none) (echo : Json) :
    keepShape key option echo = echo := by
  rw [keepShape, h]

variable {api : OrtApi} {dumpFloat : Double → Bytes} {option : Json} {built : BuiltOptions}

theorem newOptions_ok (hcuda : wantsCuda api option = false) :
    newOptions api dumpFloat option = .ok built ↔
      (extensionPaths option).forM (registerExtension api) = .ok () ∧
        built = ⟨⟨(appliedOptions api option).1, extensionPaths option, none⟩,
          keepShape (ascii "output_shape") option (keepShape (ascii "input_shape") option
            (echoedOptions (appliedOptions api option).2 (extensionPaths option)))⟩ := by
  rw [newOptions, hcuda]
  cases (extensionPaths option).forM (registerExtension api) with
  | error e => exact ⟨nofun, fun h => nomatch h.1⟩
  | ok _ => exact ⟨fun h => ⟨rfl, (Except.ok.inj h).symm⟩, fun h => congrArg Except.ok h.2.symm⟩

theorem erase_keepShapes (option : Json) (members : List (Bytes × Json)) :
    ((keepShape (ascii "output_shape") option
      (keepShape (ascii "input_shape") option (.object members))).erase
        (ascii "input_shape")).erase (ascii "output_shape") =
      ((Json.object members).erase (ascii "input_shape")).erase (ascii "output_shape") := by
  obtain ⟨kept, hkept⟩ := keepShape_object (ascii "input_shape") option members
  rw [hkept, Json.erase_comm, erase_keepShape, Json.erase_comm, ← hkept, erase_keepShape]

/-- What `init` leaves is the echo of `session_options` and of the extensions. -/
theorem BuiltOptions.echo_eq (hcuda : wantsCuda api option = false)
    (h : newOptions api dumpFloat option = .ok built) :
    built.echo = echoedOptions (appliedOptions api option).2 (extensionPaths option) := by
  obtain ⟨_, rfl⟩ := (newOptions_ok hcuda).1 h
  obtain ⟨members, hmembers⟩ :=
    echoedOptions_object (appliedOptions api option).2 (extensionPaths option)
  have hinput := find_echoedOptions_shape (appliedOptions api option).2 (extensionPaths option)
    (ascii "input_shape") (by simp)
  have houtput := find_echoedOptions_shape (appliedOptions api option).2 (extensionPaths option)
    (ascii "output_shape") (by simp)
  rw [echo]
  dsimp only
  rw [hmembers] at hinput houtput ⊢
  rw [erase_keepShapes, Json.erase_of_find hinput, Json.erase_of_find houtput]

/-- From what is left of `_option` the constructor makes the same options, and leaves it again. -/
theorem newOptions_echo (hcuda : wantsCuda api option = false)
    (h : newOptions api dumpFloat option = .ok built) :
    newOptions api dumpFloat built.echo = .ok ⟨built.session_options, built.echo⟩ := by
  rw [BuiltOptions.echo_eq hcuda h]
  obtain ⟨hregister, rfl⟩ := (newOptions_ok hcuda).1 h
  generalize hecho :
    echoedOptions (appliedOptions api option).2 (extensionPaths option) = echo
  have hfind := find_echoedOptions (appliedOptions api option).2 (extensionPaths option)
  have hnone := find_echoedOptions_shape (appliedOptions api option).2 (extensionPaths option)
  rw [hecho] at hfind hnone
  have happlied : appliedOptions api echo = appliedOptions api option := by
    apply appliedOptions_again
    rw [hfind]
    cases (appliedOptions api option).2.members.isEmpty <;> rfl
  have hpaths : extensionPaths echo = extensionPaths option := by
    apply extensionPaths_again
    · rw [hfind]
      cases (extensionPaths option).isEmpty <;> rfl
    · exact hnone _ (by simp)
  have hagain : wantsCuda api echo = false := by
    have hfalse : echo.find (ascii "cuda") = some (.boolean false) := by
      rw [hfind]
      rfl
    rw [wantsCuda, hfalse]
    exact Bool.and_false _
  refine (newOptions_ok hagain).2 ⟨?_, ?_⟩
  · rw [hpaths, hregister]
  · rw [happlied, hpaths, hecho, keepShape_of_find (hnone _ (by simp)),
      keepShape_of_find (hnone _ (by simp))]

theorem cudaEcho_object (h : cudaEcho requested text = .ok j) : ∃ members, j = .object members := by
  cases text with
  | none => exact ⟨_, (Except.ok.inj h).symm⟩
  | some text =>
    rw [cudaEcho] at h
    cases hall : parseOptionsString (cString text) with
    | none =>
      rw [hall] at h
      cases h
    | some all =>
      rw [hall] at h
      exact ⟨_, (Except.ok.inj h).symm⟩

theorem appendCudaSessionOptions_object {cuda : CudaApi}
    (h : appendCudaSessionOptions cuda dumpFloat option = .ok j) :
    ∃ members, j = .object members := by
  rw [appendCudaSessionOptions] at h
  cases hcreate : cuda.createCUDAProviderOptions with
  | some err =>
    rw [hcreate] at h
    cases h
  | none =>
    rw [hcreate] at h
    obtain ⟨updates, _, h⟩ := bind_eq_ok.1 h
    obtain ⟨_, _, h⟩ := bind_eq_ok.1 h
    dsimp only at h
    cases happend : cuda.appendExecutionProvider (passedUpdates updates) with
    | some err =>
      rw [happend] at h
      cases h
    | none =>
      rw [happend] at h
      exact cudaEcho_object h

theorem appendCuda_object (h : appendCuda api dumpFloat option = .ok j) :
    ∃ members, j = .object members := by
  rw [appendCuda] at h
  cases hapi : api.cuda with
  | none =>
    rw [hapi] at h
    cases h
  | some cuda =>
    simp only [hapi] at h
    exact appendCudaSessionOptions_object h

theorem find_keepShape_of_ne (option echo : Json) (h : kept ≠ key) :
    (keepShape kept option echo).find key = echo.find key := by
  rw [keepShape]
  split
  · rw [Json.find_set, if_neg h]
  · rfl

theorem BuiltOptions.find_cuda (hcuda : wantsCuda api option = true)
    (h : newOptions api dumpFloat option = .ok built) :
    ∃ members, built.echo.find (ascii "cuda") = some (.object members) := by
  rw [newOptions, hcuda] at h
  obtain ⟨_, _, h⟩ := bind_eq_ok.1 h
  obtain ⟨cuda, happend, h⟩ := bind_eq_ok.1 h
  obtain ⟨members, rfl⟩ := appendCuda_object happend
  obtain rfl := Except.ok.inj h
  refine ⟨members, ?_⟩
  rw [BuiltOptions.echo, Json.find_erase_of_ne _ (by decide), Json.find_erase_of_ne _ (by decide),
    find_keepShape_of_ne _ _ (by decide), find_keepShape_of_ne _ _ (by decide), Json.find_set,
    if_pos rfl]

variable {session : Session} {key : SessionKey} {created_at : Int64} {ort_session : OrtSession}
  {lib : JsonLibrary} {env : OrtEnv} {rt : Runtime} {manager manager' : Manager}
  {model_data : Bytes} {options : OrtOptions}

theorem Session.option_of_init
    (h : Session.init dumpFloat key option created_at ort_session = .ok session) :
    session.option = (option.erase (ascii "input_shape")).erase (ascii "output_shape") ∧
      session.ort_session = ort_session := by
  rw [Session.init] at h
  obtain ⟨inputs, _, h⟩ := bind_eq_ok.1 h
  obtain ⟨outputs, _, h⟩ := bind_eq_ok.1 h
  obtain rfl := Except.ok.inj h
  exact ⟨rfl, rfl⟩

/-- What a session shows makes the options again with which its model was opened. -/
structure Session.Reopens (lib : JsonLibrary) (env : OrtEnv) (session : Session)
    (options : OrtOptions) : Prop where
  made : newOptions env.api lib.dumpFloat session.option = .ok ⟨options, session.option⟩
  opened : (∃ model_data, env.openData model_data options = .ok session.ort_session) ∨
    ∃ path, env.openPath path options = .ok session.ort_session
  input_shape : session.option.find (ascii "input_shape") = none
  output_shape : session.option.find (ascii "output_shape") = none

theorem newOptions_of_init (hcuda : session.option.find (ascii "cuda") = some (.boolean false))
    (hbuilt : newOptions api dumpFloat option = .ok built)
    (h : Session.init dumpFloat key built.option created_at ort_session = .ok session) :
    newOptions api dumpFloat session.option = .ok ⟨built.session_options, session.option⟩ := by
  have hecho : session.option = built.echo := (Session.option_of_init h).1
  cases hwants : wantsCuda api option with
  | false =>
    rw [hecho]
    exact newOptions_echo hwants hbuilt
  | true =>
    obtain ⟨members, hobject⟩ := BuiltOptions.find_cuda hwants hbuilt
    rw [hecho, hobject] at hcuda
    cases hcuda

theorem shapes_of_init
    (h : Session.init dumpFloat key option created_at ort_session = .ok session) :
    session.option.find (ascii "input_shape") = none ∧
      session.option.find (ascii "output_shape") = none := by
  rw [(Session.option_of_init h).1]
  constructor
  · rw [Json.find_erase_of_ne _ (by decide), Json.find_erase_self]
  · exact Json.find_erase_self _ _

theorem reopens_of_init (hcuda : session.option.find (ascii "cuda") = some (.boolean false))
    (hbuilt : newOptions env.api lib.dumpFloat option = .ok built)
    (hopen : (∃ model_data, env.openData model_data built.session_options = .ok ort_session) ∨
      ∃ path, env.openPath path built.session_options = .ok ort_session)
    (h : Session.init lib.dumpFloat key built.option created_at ort_session = .ok session) :
    ∃ options, session.Reopens lib env options := by
  obtain ⟨hinput, houtput⟩ := shapes_of_init h
  rw [← (Session.option_of_init h).2] at hopen
  exact ⟨built.session_options, newOptions_of_init hcuda hbuilt h, hopen, hinput, houtput⟩

theorem load_built
    (h : load ((rt.withOrt lib.dumpFloat env).loader lib) name version option key source =
      .ok session) :
    ∃ built ort_session, newOptions env.api lib.dumpFloat option = .ok built ∧
      ((∃ data, env.openData data built.session_options = .ok ort_session) ∨
        ∃ path, env.openPath path built.session_options = .ok ort_session) ∧
      Session.init lib.dumpFloat key built.option rt.now ort_session = .ok session := by
  obtain ⟨opened, ⟨data, hopened⟩ | ⟨path, hopened⟩, hinit⟩ := load_opened h
  · obtain ⟨built, hbuilt, hopened⟩ := bind_eq_ok.1 hopened
    obtain ⟨ort_session, hopen, hopened⟩ := bind_eq_ok.1 hopened
    obtain rfl := Except.ok.inj hopened
    exact ⟨built, ort_session, hbuilt, .inl ⟨data, hopen⟩, hinit⟩
  · obtain ⟨built, hbuilt, hopened⟩ := bind_eq_ok.1 hopened
    obtain ⟨ort_session, hopen, hopened⟩ := bind_eq_ok.1 hopened
    obtain rfl := Except.ok.inj hopened
    exact ⟨built, ort_session, hbuilt, .inr ⟨path, hopen⟩, hinit⟩

theorem load_reopens
    (h : load ((rt.withOrt lib.dumpFloat env).loader lib) name version option key source =
      .ok session)
    (hcuda : session.option.find (ascii "cuda") = some (.boolean false)) :
    ∃ options, session.Reopens lib env options := by
  obtain ⟨built, ort_session, hbuilt, hopen, hinit⟩ := load_built h
  exact reopens_of_init hcuda hbuilt hopen hinit

theorem Session.Reopens.touch (h : session.Reopens lib env options) (now : Int64) :
    (session.touch now).Reopens lib env options :=
  ⟨h.made, h.opened, h.input_shape, h.output_shape⟩

namespace Manager

/-- The server over ONNX Runtime, with its models prepared. -/
def Prepared (lib : JsonLibrary) (env : OrtEnv) (manager : Manager) : Prop :=
  ∃ (rt : SessionKey → Runtime) (prepare_model : Bytes) (heap : Heap), (empty heap).prepareModels lib
    (fun key => (rt key).withOrt lib.dumpFloat env) prepare_model = .ok manager

/-- Some client's task is run. -/
def Turns (lib : JsonLibrary) (env : OrtEnv) (manager manager' : Manager) : Prop :=
  ∃ (rt : Runtime) (task : Task), manager' = (manager.run lib (rt.withOrt lib.dumpFloat env) task).1

/-- Each session that shows no CUDA reopens. -/
def Reopens (lib : JsonLibrary) (env : OrtEnv) (manager : Manager) : Prop :=
  ∀ key session, manager.sessions.find key = some session →
    session.option.find (ascii "cuda") = some (.boolean false) →
    ∃ options, session.Reopens lib env options

theorem Prepared.reopens (h : Prepared lib env manager) : manager.Reopens lib env := by
  obtain ⟨rt, prepare_model, heap, hprepare⟩ := h
  obtain ⟨models, _, hfold⟩ := bind_eq_ok.1 hprepare
  intro key session hf hcuda
  rcases (find_prepared hfold key session).1 hf with hf | ⟨model, _, rfl, hload⟩
  · cases hf
  · exact load_reopens hload hcuda

theorem Reopens.turns (h : Reopens lib env manager) (ht : Turns lib env manager manager') :
    manager'.Reopens lib env := by
  obtain ⟨rt, task, rfl⟩ := ht
  intro key session hf hcuda
  rcases run_find hf with ⟨before, hbefore, rfl | rfl⟩ | ⟨_, _, _, _, _, hload⟩
  · exact h key session hbefore hcuda
  · obtain ⟨options, hreopens⟩ := h key before hbefore hcuda
    exact ⟨options, hreopens.touch _⟩
  · exact load_reopens hload hcuda

end Manager

theorem mapM_overrideShape (dumpFloat : Double → Bytes) {option : Json}
    (h : option.find option_key = none) (infos : List ValueInfo) :
    infos.mapM (Session.overrideShape dumpFloat option option_key) = .ok infos := by
  have hnull : option.member option_key = .null := by
    rw [Json.member, h]
    rfl
  have hone : ∀ info, Session.overrideShape dumpFloat option option_key info = .ok info := by
    intro info
    rw [Session.overrideShape, hnull]
    rfl
  induction infos with
  | nil => rfl
  | cons info infos ih => rw [List.mapM_cons, hone, ih]; rfl

/-- The model of a session is opened again with what the session shows, under the shapes of the
model itself. -/
theorem Session.Reopens.fromData (h : session.Reopens lib env options)
    (hopen : env.openData model_data options = .ok session.ort_session) (rt : Runtime)
    (key : SessionKey) :
    ∃ again, ((rt.withOrt lib.dumpFloat env).loader lib).fromData key model_data session.option =
        .ok again ∧ again.option = session.option ∧
      again.inputs = session.ort_session.inputs ∧ again.outputs = session.ort_session.outputs := by
  have hinputs := mapM_overrideShape lib.dumpFloat h.input_shape session.ort_session.inputs
  have houtputs := mapM_overrideShape lib.dumpFloat h.output_shape session.ort_session.outputs
  have hopened : (rt.withOrt lib.dumpFloat env).openData model_data session.option =
      .ok (session.option, session.ort_session) := by
    refine bind_eq_ok.2 ⟨_, h.made, bind_eq_ok.2 ⟨_, hopen, rfl⟩⟩
  have hinit : Session.init lib.dumpFloat key session.option rt.now session.ort_session = .ok
      { key, ort_session := session.ort_session, created_at := rt.now
        last_executed_at := 0
        execution_count := 0
        inputCount := session.ort_session.inputs.length
        inputNames := session.ort_session.inputs.map ValueInfo.name
        inputs := session.ort_session.inputs
        outputCount := session.ort_session.outputs.length
        outputNames := session.ort_session.outputs.map ValueInfo.name
        outputs := session.ort_session.outputs
        option := session.option } := by
    rw [Session.init, hinputs]
    dsimp only [bind, Except.bind]
    rw [Json.erase_of_find h.input_shape, houtputs]
    dsimp only
    rw [Json.erase_of_find h.output_shape]
  exact ⟨_, bind_eq_ok.2 ⟨_, hopened, hinit⟩, rfl, rfl, rfl⟩

theorem modelSource_data (option : Json) (h : model_data ≠ []) :
    modelSource option (some model_data) = .data model_data := by
  cases model_data with
  | nil => exact absurd rfl h
  | cons b model_data => rfl

/-- From the start of the server on, whatever clients ask for, the options that a session without
CUDA shows are enough to make it again: they make the options with which its model was opened, and a
session that is created from them and the model shows them too, with the shapes of the model. -/
theorem Manager.recreate
    (h : Reachable (Prepared lib env) (Turns lib env) manager)
    (hf : manager.sessions.find key = some session)
    (hcuda : session.option.find (ascii "cuda") = some (.boolean false)) :
    ∃ options, newOptions env.api lib.dumpFloat session.option = .ok ⟨options, session.option⟩ ∧
      ((∃ model_data, env.openData model_data options = .ok session.ort_session) ∨
        ∃ path, env.openPath path options = .ok session.ort_session) ∧
      ∀ (rt : Runtime) (model_data : Bytes) (manager' : Manager), model_data ≠ [] →
        env.openData model_data options = .ok session.ort_session →
        manager'.sessions.find key = none →
        ∃ description, (manager'.run lib (rt.withOrt lib.dumpFloat env) (.createSession
            key.model_name key.model_version session.option (some model_data))).2 =
              .ok description ∧
          description.member (ascii "option") = session.option ∧
          description.member (ascii "inputs") = Session.typesJson session.ort_session.inputs ∧
          description.member (ascii "outputs") = Session.typesJson session.ort_session.outputs := by
  have hinv : manager.Reopens lib env :=
    h.invariant (fun _ => Prepared.reopens) fun _ _ _ hinv ht => hinv.turns ht
  obtain ⟨options, hreopens⟩ := hinv key session hf hcuda
  refine ⟨options, hreopens.made, hreopens.opened, ?_⟩
  intro rt model_data manager' hdata hopen hnone
  obtain ⟨again, hagain, hoption, hinputs, houtputs⟩ := hreopens.fromData hopen rt key
  have hkey : sessionKey key.model_name key.model_version = .ok key := sessionKey_ok.2 ⟨rfl, rfl⟩
  have hload : load ((rt.withOrt lib.dumpFloat env).loader lib) key.model_name key.model_version
      session.option key (modelSource session.option (some model_data)) = .ok again := by
    rw [modelSource_data _ hdata]
    exact hagain
  refine ⟨again.toJson, ?_, ?_, ?_, ?_⟩
  · rw [run, describe, perform, Call.key, hkey]
    simp only [hnone, hload, finish]
  · rw [← hoption]
    rfl
  · rw [← hinputs]
    rfl
  · rw [← houtputs]
    rfl

def plainOrt : OrtEnv where
  api := ⟨fun _ => true, fun _ => none, false, none⟩
  openData _ _ := .ok ⟨0, [], []⟩
  openPath _ _ := .ok ⟨0, [], []⟩

def twoThreads : Json :=
  .object [(ascii "session_options", .object [(ascii "intra_op_num_threads", .integer 2)])]

def shownThreads : Json :=
  .object [(ascii "cuda", .boolean false),
    (ascii "session_options", .object [(ascii "intra_op_num_threads", .integer 2)])]

def threadsManager : Manager :=
  ((Manager.empty Heap.empty).run Server.nullLib
    (exampleRuntime.withOrt Server.nullLib.dumpFloat plainOrt)
    (.createSession (ascii "m") (ascii "1") twoThreads none)).1

theorem Manager.recreate_threads : ∃ options,
    newOptions plainOrt.api Server.nullLib.dumpFloat shownThreads = .ok ⟨options, shownThreads⟩ ∧
      ∃ description, ((Manager.empty Heap.empty).run Server.nullLib
          (exampleRuntime.withOrt Server.nullLib.dumpFloat plainOrt)
          (.createSession (ascii "m") (ascii "1") shownThreads (some [0]))).2 = .ok description ∧
        description.member (ascii "option") = shownThreads := by
  have hstart : Prepared Server.nullLib plainOrt (Manager.empty Heap.empty) :=
    ⟨fun _ => exampleRuntime, [], Heap.empty, rfl⟩
  have hreach : Reachable (Prepared Server.nullLib plainOrt) (Turns Server.nullLib plainOrt)
      threadsManager :=
    .next (.start hstart) ⟨exampleRuntime, _, rfl⟩
  have hshown : (threadsManager.sessions.find Session.exampleKey).map Session.option =
      some shownThreads := rfl
  obtain ⟨session, hf, hoption⟩ := Option.map_eq_some_iff.1 hshown
  obtain ⟨options, hmade, _, hagain⟩ := recreate hreach hf (by rw [hoption]; rfl)
  rw [hoption] at hmade hagain
  have hort : session.ort_session = ⟨0, [], []⟩ := by
    have hfind : (threadsManager.sessions.find Session.exampleKey).map Session.ort_session =
        some ⟨0, [], []⟩ := rfl
    rw [hf] at hfind
    exact Option.some.inj hfind
  obtain ⟨description, hrun, hshows, _⟩ := hagain exampleRuntime [0]
    (Manager.empty Heap.empty) (List.cons_ne_nil 0 []) (by rw [hort]; rfl) rfl
  exact ⟨options, hmade, description, hrun, hshows⟩

end OnnxruntimeServer
