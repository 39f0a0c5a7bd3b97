import OnnxruntimeServer.JsonRoundTrip
import OnnxruntimeServer.TcpUpload

namespace OnnxruntimeServer
set_option autoImplicit true

/-- ONNX Runtime makes of a path what it makes of the bytes in the file there. -/
def Runtime.onDisk (files : List (Bytes × Bytes)) (rt : Runtime) : Runtime :=
  { rt with
    openPath path option :=
      match files.find? fun f => f.1 = path with
      | some f => rt.openData f.2 option
      | none => .error (exception .stdException
          (ascii "Load model from " ++ path ++ ascii " failed. File doesn't exist")) }

/-- A session has been created from one of these models, or none has. -/
def CreatedFrom (loader : Loader Session) (models : Set Bytes)
    (sessions sessions' : Sessions Session) : Prop :=
  sessions' = sessions ∨ ∃ key option session, ∃ bin ∈ models,
    loader.fromData key bin option = .ok session ∧ sessions' = sessions.emplace key session

theorem run_create {manager : Manager} {models : Set Bytes} (lib : JsonLibrary) (rt : Runtime)
    (files : List (Bytes × Bytes)) (name version : Bytes)
    (h : ∀ key session, load ((rt.onDisk files).loader lib) name version option key
      (modelSource option none) = .ok session →
      ∃ bin ∈ models, (rt.loader lib).fromData key bin option = .ok session) :
    CreatedFrom (rt.loader lib) models manager.sessions
      (manager.run lib (rt.onDisk files) (.createSession name version option none)).1.sessions := by
  rw [Manager.run, Manager.describe_sessions]
  have hc := perform_create ((rt.onDisk files).loader lib) name version option none manager.sessions
  obtain ⟨e, he⟩ | ⟨key, session, _, hload, _, he⟩ := hc
  · exact .inl (congrArg Prod.snd he)
  · obtain ⟨bin, hmem, hdata⟩ := h key session hload
    exact .inr ⟨key, option, session, bin, hmem, hdata, congrArg Prod.snd he⟩

theorem fromPath_onDisk {files : List (Bytes × Bytes)} {rt : Runtime} {session : Session}
    (h : ((rt.onDisk files).loader lib).fromPath key path option = .ok session) :
    ∃ bin, files.find? (fun f => f.1 = path) = some (path, bin) ∧
      (rt.loader lib).fromData key bin option = .ok session := by
  obtain ⟨opened, hopen, hinit⟩ := bind_eq_ok.1 h
  simp only [Runtime.onDisk] at hopen
  cases hf : files.find? fun f => f.1 = path with
  | none =>
    rw [hf] at hopen
    cases hopen
  | some f =>
    rw [hf] at hopen
    have hpath : f.1 = path := by simpa using List.find?_some hf
    refine ⟨f.2, by rw [← hpath], ?_⟩
    exact bind_eq_ok.2 ⟨opened, hopen, hinit⟩

theorem modelSource_none (option : Json) : modelSource option none ≠ .data bin := by
  rw [modelSource, Option.filter_none]
  cases option.find (ascii "path") with
  | none => simp
  | some path => cases path <;> simp

namespace TcpSession
variable {session session' : TcpSession} {header header' : ProtocolHeader}

/-- `do_read` has taken this frame from the stream: the bytes of its header, and as many bytes for
the JSON and for the post as the header says. -/
structure FrameRead (session : TcpSession) (header : ProtocolHeader) (json post : Bytes)
    (session' : TcpSession) : Prop where
  json_length : json.length = header.json_length.toInt.toNat
  post_length : post.length = header.post_length.toInt.toNat
  stream : ∃ memory, memory.length = ProtocolHeader.size ∧
    header = (ProtocolHeader.ofMemory memory).toHost ∧
    session.socket.chunks.flatten = memory ++ (json ++ (post ++ session'.socket.chunks.flatten))

theorem readBuffer_ok (h : session.readBuffer length = (true, session')) :
    ∃ bytes, bytes.length = length.toInt.toNat ∧
      session.socket.chunks.flatten = bytes ++ session'.socket.chunks.flatten ∧
      session' = { session with socket := session'.socket, buffer := session.buffer ++ bytes } := by
  obtain ⟨hok, rfl⟩ := Prod.mk.inj h
  obtain ⟨hlen, hflat⟩ := readExact_ok hok
  exact ⟨_, hlen, hflat, rfl⟩

theorem refuse_none (type what : Bytes) (session : TcpSession) :
    (session.refuse type what).1 ≠ .ok (some header) := by
  rw [refuse]
  cases session.getRemoteEndpoint with
  | error e => simp
  | ok session₁ =>
    dsimp only
    cases session₁.sendError type what with
    | error e => simp
    | ok r => simp

theorem readHeader_ok (h : session.readHeader = (some header, session')) :
    ∃ memory, memory.length = ProtocolHeader.size ∧
      header = (ProtocolHeader.ofMemory memory).toHost ∧
      session.socket.chunks.flatten = memory ++ session'.socket.chunks.flatten ∧
      session' = { session with socket := session'.socket } := by
  rw [readHeader] at h
  dsimp only at h
  split_ifs at h with hlt
  · cases h
  obtain ⟨hheader, rfl⟩ := Prod.mk.inj h
  have hle : (session.socket.readSome ProtocolHeader.size).1.length ≤ ProtocolHeader.size :=
    Chunks.readSome_length_le _ _
  exact ⟨_, le_antisymm hle (not_lt.1 hlt), (Option.some.inj hheader).symm,
    (Chunks.readSome_append _ _).symm, rfl⟩

theorem readUpload_ok (h : session.readUpload header = (.ok (some header'), session')) :
    header' = header ∧ session'.buffer = session.buffer ∧ session'.uploaded_model_path ≠ [] ∧
      ∃ post, post.length = header.post_length.toInt.toNat ∧
        session.socket.chunks.flatten = post ++ session'.socket.chunks.flatten ∧
        session'.disk.files.find? (fun f => f.1 = session'.uploaded_model_path) =
          some (session'.uploaded_model_path, post) := by
  rw [readUpload_eq] at h
  cases hd : session.uploadDir session.disk.made with
  | error what =>
    rw [hd] at h
    cases h
  | ok dir =>
    rw [hd] at h
    dsimp only at h
    split_ifs at h with hopens hread
    · exact absurd (congrArg Prod.fst h) (refuse_none _ _ _)
    · cases h
    · obtain ⟨hheader, rfl⟩ := Prod.mk.inj h
      rw [Bool.not_eq_true, Bool.or_eq_false_iff, Bool.not_eq_false'] at hread
      obtain ⟨hok, hroom⟩ := hread
      obtain ⟨hlen, hflat⟩ := readExact_ok hok
      have hall : ∀ bytes : Bytes,
          (session.disk.fate session.disk.made).room.any (· < bytes.length) = false →
          bytes.take ((session.disk.fate session.disk.made).room.getD bytes.length) = bytes := by
        intro bytes hb
        cases hr : (session.disk.fate session.disk.made).room with
        | none => exact List.take_length
        | some room =>
          rw [hr] at hb
          exact List.take_of_length_le (by simpa using hb)
      refine ⟨(Option.some.inj (Except.ok.inj hheader)).symm, rfl, joinPath_ne_nil _ _, _, hlen,
        hflat, ?_⟩
      rw [hall _ hroom]
      exact find_store _ _ _

theorem readPost_ok (h : session.readPost header = (.ok (some header'), session')) :
    header' = header ∧ (header.type = Task.CREATE_SESSION → session'.buffer = session.buffer ∧
      ∃ post, post.length = header.post_length.toInt.toNat ∧
        session.socket.chunks.flatten = post ++ session'.socket.chunks.flatten ∧
        (0 < header.post_length → session'.uploaded_model_path ≠ [] ∧
          session'.disk.files.find? (fun f => f.1 = session'.uploaded_model_path) =
            some (session'.uploaded_model_path, post)) ∧
        (¬ 0 < header.post_length → session' = session)) := by
  rw [readPost] at h
  split_ifs at h with hupload hpos
  · obtain ⟨hheader, hbuffer, hpath, post, hlen, hflat, hfile⟩ := readUpload_ok h
    exact ⟨hheader, fun _ => ⟨hbuffer, post, hlen, hflat, fun _ => ⟨hpath, hfile⟩,
      fun hn => absurd hupload.2 hn⟩⟩
  · generalize session.readBuffer header.post_length = read at h
    obtain ⟨_ | _, session₁⟩ := read
    · cases h
    · obtain ⟨hheader, _⟩ := Prod.mk.inj h
      exact ⟨(Option.some.inj (Except.ok.inj hheader)).symm, fun ht => absurd ⟨ht, hpos⟩ hupload⟩
  · obtain ⟨hheader, rfl⟩ := Prod.mk.inj h
    refine ⟨(Option.some.inj (Except.ok.inj hheader)).symm, fun _ => ⟨rfl, [], ?_, rfl,
      fun hp => absurd hp hpos, fun _ => rfl⟩⟩
    rw [Int64.lt_iff_toInt_lt, Int64.toInt_zero] at hpos
    rw [List.length_nil, Int.toNat_of_nonpos (not_lt.1 hpos)]

/-- What `do_read` leaves behind when it has read a request to create a session. -/
theorem doRead_ok (h : session.doRead = (.ok (some header), session'))
    (htype : header.type = Task.CREATE_SESSION) :
    ∃ json post, session.FrameRead header json post session' ∧ session'.buffer = json ∧
      (0 < header.post_length → session'.uploaded_model_path ≠ [] ∧
        session'.disk.files.find? (fun f => f.1 = session'.uploaded_model_path) =
          some (session'.uploaded_model_path, post)) ∧
      (¬ 0 < header.post_length → session.atHeader.KeepsFiles session') := by
  have hsocket : session.atHeader.socket = session.socket := writes_cleanupUpload _
  have hbuffer : session.atHeader.buffer = [] := by
    obtain ⟨files, hclean⟩ := cleanupUpload_spec { session with buffer := [] }
    rw [atHeader, hclean]
  rw [doRead, ← atHeader] at h
  rcases hh : session.atHeader.readHeader with ⟨_ | read, session₁⟩
  · rw [hh] at h
    cases h
  · rw [hh] at h
    obtain ⟨memory, hmem, hread, hflat, hkeep⟩ := readHeader_ok hh
    dsimp only at h
    rw [readBody] at h
    split_ifs at h with haccept
    · exact absurd (congrArg Prod.fst h) (refuse_none _ _ _)
    · rcases hj : session₁.readBuffer read.json_length with ⟨_ | _, session₂⟩
      · rw [hj] at h
        cases h
      · rw [hj] at h
        obtain ⟨json, hjson, hflat', hkeep'⟩ := readBuffer_ok hj
        obtain ⟨rfl, hpost⟩ := readPost_ok h
        obtain ⟨hbuffer', post, hlen, hflat'', hup, hno⟩ := hpost htype
        have hjson' : session₂.buffer = json := by
          rw [hkeep', hkeep, hbuffer, List.nil_append]
        refine ⟨json, post, ⟨hjson, hlen, memory, hmem, hread, ?_⟩, hbuffer'.trans hjson', hup, ?_⟩
        · rw [← hsocket, hflat, hflat', hflat'']
        · intro hn
          rw [hno hn, hkeep', hkeep]
          exact ⟨_, _, _, rfl⟩

theorem assign_ok {j j' : Json} (h : j.assign key value = .ok j') :
    j'.isObject = true ∧ j'.find key = some value := by
  cases j with
  | object members =>
    obtain rfl := Except.ok.inj h
    refine ⟨rfl, ?_⟩
    rw [Json.find, Json.find_setMember, if_pos rfl]
    rfl
  | null =>
    obtain rfl := Except.ok.inj h
    refine ⟨rfl, ?_⟩
    simp [Json.find]
  | _ => cases h

theorem createTask_create (json : Json) (post : Option Bytes) :
    createTask Task.CREATE_SESSION json post = createSession json post := by
  rw [createTask, if_neg (by decide), if_neg (by decide), if_pos rfl]

theorem requestTask_upload (htype : header.type = Task.CREATE_SESSION)
    (hpath : session.uploaded_model_path ≠ []) (h : session.requestTask lib header = .ok task) :
    ∃ name version option, task = .createSession name version option none ∧
      modelSource option none = .path session.uploaded_model_path := by
  rw [requestTask, requestPost, if_pos hpath, htype] at h
  obtain ⟨json, hjson, h⟩ := bind_eq_ok.1 h
  obtain ⟨body, _, hjson⟩ := bind_eq_ok.1 hjson
  rw [if_pos hpath] at hjson
  obtain ⟨option, hoption, hassign⟩ := bind_eq_ok.1 hjson
  obtain ⟨hobject, hfind⟩ := assign_ok hoption
  rw [createTask_create] at h
  obtain ⟨names, _, h⟩ := bind_eq_ok.1 h
  have hmember : json.member (ascii "option") = option := by
    rw [Json.member, (assign_ok hassign).2]
    rfl
  simp only [hmember, if_pos hobject] at h
  refine ⟨names.1, names.2, option, (Except.ok.inj h).symm, ?_⟩
  rw [modelSource, hfind]
  rfl

theorem requestTask_none (htype : header.type = Task.CREATE_SESSION)
    (hpath : session.uploaded_model_path = []) (hpost : ¬ 0 < header.post_length)
    (h : session.requestTask lib header = .ok task) :
    ∃ name version option, task = .createSession name version option none := by
  rw [requestTask, requestPost, if_neg (not_not.2 hpath), if_neg hpost, htype] at h
  obtain ⟨json, _, h⟩ := bind_eq_ok.1 h
  rw [createTask_create] at h
  obtain ⟨names, _, h⟩ := bind_eq_ok.1 h
  exact ⟨names.1, names.2, _, (Except.ok.inj h).symm⟩

theorem round_manager (services : Services M) (manager : M)
    (h : session.doRead = (.ok (some header), session')) :
    (session.round services manager).2.1 = match session'.requestTask services.json header with
      | .ok task => (services.run manager task).1
      | .error _ => manager := by
  refine Eq.trans ?_ (answer_manager services manager header session')
  rw [TcpSession.round, h]
  dsimp only
  rw [serve]
  rcases session'.answer services manager header with ⟨e | res_json, manager', session₁⟩
  · dsimp only
    cases session₁.getRemoteEndpoint with
    | error e => rfl
    | ok session₂ =>
      dsimp only
      cases session₂.sendError e.kind.type e.what <;> rfl
  · dsimp only
    rcases session₁.doWrite (resHeader header.type res_json.length) res_json with ⟨_ | _, _⟩ <;> rfl

/-- The models that were there without the uploads of a session: in a file, or in the directory of
models. -/
def modelsWithout (files : List (Bytes × Bytes)) (rt : Runtime) : Set Bytes :=
  { bin | (∃ path, (path, bin) ∈ files) ∨
    ∃ name version, rt.model_bin_getter name version = .ok bin }

/-- In every run, a request to create a session with a post creates it from the bytes of this post
or not at all, and one without a post never creates it from an upload. -/
theorem uploaded_model_loaded (h : Running M files session)
    (hread : session.doRead = (.ok (some header), session'))
    (htype : header.type = Task.CREATE_SESSION) (lib : JsonLibrary) (rt : Runtime)
    (manager : Manager) :
    ∃ json post, session.FrameRead header json post session' ∧
      CreatedFrom (rt.loader lib)
        (if 0 < header.post_length then {post} else modelsWithout files rt) manager.sessions
        (session.round (Manager.services lib (rt.onDisk session'.disk.files))
          manager).2.1.sessions := by
  obtain ⟨json, post, hframe, _, hup, hno⟩ := doRead_ok hread htype
  refine ⟨json, post, hframe, ?_⟩
  rw [round_manager _ _ hread]
  change CreatedFrom _ _ _ (Manager.sessions (match session'.requestTask lib header with
    | .ok task => (manager.run lib (rt.onDisk session'.disk.files) task).1
    | .error _ => manager))
  cases ht : session'.requestTask lib header with
  | error e => exact .inl rfl
  | ok task =>
    by_cases hpos : 0 < header.post_length
    · obtain ⟨hpath, hfile⟩ := hup hpos
      obtain ⟨name, version, option, rfl, hsource⟩ := requestTask_upload htype hpath ht
      rw [if_pos hpos]
      apply run_create
      intro key created hload
      rw [hsource] at hload
      obtain ⟨bin, hbin, hdata⟩ := fromPath_onDisk hload
      rw [hfile] at hbin
      exact ⟨bin, (Prod.mk.inj (Option.some.inj hbin)).2.symm, hdata⟩
    · have hclean := h.uploads.atHeader.keepsFiles (hno hpos)
      obtain ⟨name, version, option, rfl⟩ := requestTask_none htype hclean.path hpos ht
      rw [if_neg hpos, hclean.files]
      apply run_create
      intro key created hload
      cases hs : modelSource option none with
      | data bin => exact absurd hs (modelSource_none option)
      | path path =>
        rw [hs] at hload
        obtain ⟨bin, hbin, hdata⟩ := fromPath_onDisk hload
        exact ⟨bin, .inl ⟨path, List.mem_of_find?_eq_some hbin⟩, hdata⟩
      | getter =>
        rw [hs] at hload
        obtain ⟨bin, hbin, hdata⟩ := bind_eq_ok.1 hload
        exact ⟨bin, .inr ⟨name, version, hbin⟩, hdata⟩

def namedUpload : Frame := ⟨⟨Task.CREATE_SESSION, 30, 27, 3⟩, Json.namesBody, [1, 2, 3]⟩

def uploaded : TcpSession := (reading [namedUpload.bytes]).doRead.2

def uploadedOnce : Sessions Session :=
  ((reading [namedUpload.bytes]).round (Manager.services Json.plainLib
    (exampleRuntime.onDisk uploaded.disk.files)) ⟨OrderedMap.empty, Heap.empty⟩).2.1.sessions

theorem requestTask_uploaded : uploaded.requestTask Json.plainLib namedUpload.header =
    .ok (.createSession (ascii "m") (ascii "1")
      (.object [(ascii "path", .string uploaded.uploaded_model_path)]) none) := by
  have hbody : uploaded.bodyJson Json.plainLib namedUpload.header = .ok Json.namesJson :=
    Json.parse_namesBody _ _
  rw [requestTask, requestJson, hbody]
  rfl

theorem uploaded_model_loaded_once :
    uploadedOnce.entries.length = 1 ∧
      ∃ json post, (reading [namedUpload.bytes]).FrameRead namedUpload.header json post uploaded ∧
        CreatedFrom (exampleRuntime.loader Json.plainLib) {post} OrderedMap.empty uploadedOnce := by
  have hfresh : (reading [namedUpload.bytes]).Fresh [] := by
    intro k dir hd f hf
    cases hf
  have hrun : Running Manager [] (reading [namedUpload.bytes]) := .start ⟨hfresh, rfl, rfl⟩
  have hread : (reading [namedUpload.bytes]).doRead = (.ok (some namedUpload.header), uploaded) :=
    rfl
  have hcount : uploadedOnce.entries.length = 1 := by
    rw [uploadedOnce, round_manager _ _ hread]
    simp only [Manager.services, requestTask_uploaded]
    rfl
  exact ⟨hcount, uploaded_model_loaded hrun hread rfl Json.plainLib exampleRuntime _⟩

end TcpSession
end OnnxruntimeServer
