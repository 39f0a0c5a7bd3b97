import OnnxruntimeServer.TcpResponse

namespace OnnxruntimeServer
set_option autoImplicit true
open Transition

namespace TcpSession

def uploadDir (session : TcpSession) (k : Nat) : Except Bytes Bytes :=
  if session.model_upload_dir = [] then (session.disk.fate k).temp_directory_path
  else .ok session.model_upload_dir

def uploadPath (session : TcpSession) (k : Nat) (dir : Bytes) : Bytes :=
  joinPath dir (uniqueUploadFilename (session.disk.fate k).dist)

/-- A name has been made up for an upload, and nothing has been opened under it. -/
def named (dir : Bytes) (session : TcpSession) : TcpSession :=
  { session with
    uploaded_model_path := session.uploadPath session.disk.made dir
    disk := { session.disk with made := session.disk.made + 1 } }

def written (content : Bytes) (socket : Socket) (session : TcpSession) : TcpSession :=
  { session with
    socket
    disk := session.disk.store session.uploaded_model_path content }

theorem readUpload_eq (header : ProtocolHeader) (session : TcpSession) :
    session.readUpload header =
      match session.uploadDir session.disk.made with
      | .error what => (.error (exception .stdException what), session)
      | .ok dir =>
        if !(session.disk.fate session.disk.made).opens then
          (session.named dir).refuse (ascii "runtime_error") (ascii "cannot store uploaded model")
        else
          let r := readExact header.post_length.toInt.toNat session.socket
          let room := (session.disk.fate session.disk.made).room
          let received := (session.named dir).written
            (r.bytes.take (room.getD r.bytes.length)) r.socket
          if !r.ok || room.any (· < r.bytes.length) then (.ok none, received)
          else (.ok (some header), received) := rfl

/-- The second session is the first one with other things read and sent. -/
def KeepsFiles (session session' : TcpSession) : Prop :=
  ∃ socket buffer remote_endpoint, session' = { session with socket, buffer, remote_endpoint }

variable {session session' : TcpSession} {header : ProtocolHeader}

theorem KeepsFiles.refl (session : TcpSession) : session.KeepsFiles session := ⟨_, _, _, rfl⟩

theorem KeepsFiles.trans {session'' : TcpSession} (h : session.KeepsFiles session')
    (h' : session'.KeepsFiles session'') : session.KeepsFiles session'' := by
  obtain ⟨_, _, _, rfl⟩ := h
  obtain ⟨socket, buffer, remote_endpoint, rfl⟩ := h'
  exact ⟨socket, buffer, remote_endpoint, rfl⟩

/-- The second session is the first one with other things sent. -/
def OnlySends (session session' : TcpSession) : Prop :=
  ∃ socket remote_endpoint, session' = { session with socket, remote_endpoint }

theorem OnlySends.keepsFiles (h : session.OnlySends session') : session.KeepsFiles session' := by
  obtain ⟨socket, remote_endpoint, rfl⟩ := h
  exact ⟨socket, session.buffer, remote_endpoint, rfl⟩

theorem OnlySends.refl (session : TcpSession) : session.OnlySends session := ⟨_, _, rfl⟩

theorem OnlySends.trans {session'' : TcpSession} (h : session.OnlySends session')
    (h' : session'.OnlySends session'') : session.OnlySends session'' := by
  obtain ⟨_, _, rfl⟩ := h
  obtain ⟨socket, remote_endpoint, rfl⟩ := h'
  exact ⟨socket, remote_endpoint, rfl⟩

theorem onlySends_getRemoteEndpoint (h : session.getRemoteEndpoint = .ok session') :
    session.OnlySends session' := by
  rw [getRemoteEndpoint] at h
  split at h
  · obtain rfl := Except.ok.inj h
    exact .refl _
  · split at h
    · cases h
    · obtain rfl := Except.ok.inj h
      exact ⟨_, _, rfl⟩

theorem onlySends_sendError {done : Bool}
    (h : session.sendError type what = .ok (done, session')) : session.OnlySends session' := by
  obtain ⟨res_json, _, h⟩ := bind_eq_ok.1 h
  obtain ⟨_, rfl⟩ := Prod.mk.inj (Except.ok.inj h)
  exact ⟨_, _, rfl⟩

theorem onlySends_refuse (type what : Bytes) (session : TcpSession) :
    session.OnlySends (session.refuse type what).2 := by
  rw [refuse]
  cases he : session.getRemoteEndpoint with
  | error e => exact .refl _
  | ok session₁ =>
    dsimp only
    cases hs : session₁.sendError type what with
    | error e => exact onlySends_getRemoteEndpoint he
    | ok r => exact (onlySends_getRemoteEndpoint he).trans (onlySends_sendError hs)

theorem keepsFiles_readHeader (session : TcpSession) :
    session.KeepsFiles session.readHeader.2 := by
  rw [readHeader]
  dsimp only
  split_ifs <;> exact ⟨_, _, _, rfl⟩

theorem keepsFiles_readBuffer (length : Int64) (session : TcpSession) :
    session.KeepsFiles (session.readBuffer length).2 := ⟨_, _, _, rfl⟩

theorem onlySends_answer (services : Services M) (manager : M) (header : ProtocolHeader)
    (session : TcpSession) :
    session.OnlySends (session.answer services manager header).2.2 := by
  rw [answer]
  cases session.requestTask services.json header with
  | error e => exact .refl _
  | ok task =>
    dsimp only
    obtain ⟨manager', _ | result⟩ := services.run manager task
    · exact .refl _
    · dsimp only
      cases he : session.getRemoteEndpoint with
      | error e => exact .refl _
      | ok session' => exact onlySends_getRemoteEndpoint he

theorem onlySends_serve (services : Services M) (manager : M) (header : ProtocolHeader)
    (session : TcpSession) :
    session.OnlySends (session.serve services manager header).2.2 := by
  have ha := onlySends_answer services manager header session
  rw [serve]
  generalize session.answer services manager header = answered at ha ⊢
  obtain ⟨e | res_json, manager', session₁⟩ := answered
  · dsimp only at ha ⊢
    cases he : session₁.getRemoteEndpoint with
    | error e => exact ha
    | ok session₂ =>
      have h₂ := ha.trans (onlySends_getRemoteEndpoint he)
      dsimp only
      cases hs : session₂.sendError e.kind.type e.what with
      | error e => exact h₂
      | ok r => exact h₂.trans (onlySends_sendError hs)
  · have hw : session₁.OnlySends
        (session₁.doWrite (resHeader header.type res_json.length) res_json).2 := ⟨_, _, rfl⟩
    dsimp only at ha ⊢
    generalize session₁.doWrite _ res_json = answer at hw ⊢
    obtain ⟨_ | _, session₂⟩ := answer <;> exact ha.trans hw

/-- The states in which an upload is on its way to its file. -/
inductive Receiving (session : TcpSession) : TcpSession → Prop where
  | named : session.uploadDir session.disk.made = .ok dir → Receiving session (session.named dir)
  | written (content : Bytes) (socket : Socket) : session.uploadDir session.disk.made = .ok dir →
    Receiving session ((session.named dir).written content socket)

theorem readUpload_files (header : ProtocolHeader) (session : TcpSession) :
    session.KeepsFiles (session.readUpload header).2 ∨
      ∃ moment, session.Receiving moment ∧ moment.KeepsFiles (session.readUpload header).2 := by
  rw [readUpload_eq]
  cases hd : session.uploadDir session.disk.made with
  | error what => exact .inl (.refl _)
  | ok dir =>
    dsimp only
    split_ifs
    · exact .inr ⟨_, .named hd, (onlySends_refuse _ _ _).keepsFiles⟩
    · exact .inr ⟨_, .written _ _ hd, .refl _⟩
    · exact .inr ⟨_, .written _ _ hd, .refl _⟩

theorem readPost_files (header : ProtocolHeader) (session : TcpSession) :
    session.KeepsFiles (session.readPost header).2 ∨
      ∃ moment, session.Receiving moment ∧ moment.KeepsFiles (session.readPost header).2 := by
  have hb := keepsFiles_readBuffer header.post_length session
  rw [readPost]
  split_ifs
  · exact readUpload_files header session
  · generalize session.readBuffer header.post_length = read at hb ⊢
    obtain ⟨_ | _, session'⟩ := read <;> exact .inl hb
  · exact .inl (.refl _)

/-- The session when `do_read` reads the header: the last upload has been cleaned up. -/
def atHeader (session : TcpSession) : TcpSession := cleanupUpload { session with buffer := [] }

theorem doRead_files (session : TcpSession) :
    session.atHeader.KeepsFiles session.doRead.2 ∨
      ∃ before moment, session.atHeader.KeepsFiles before ∧ before.Receiving moment ∧
        moment.KeepsFiles session.doRead.2 := by
  have hh := keepsFiles_readHeader session.atHeader
  rw [doRead, ← atHeader]
  generalize session.atHeader.readHeader = read at hh ⊢
  obtain ⟨_ | header, session₁⟩ := read
  · exact .inl hh
  · dsimp only at hh ⊢
    rw [readBody]
    split_ifs
    · exact .inl (hh.trans (onlySends_refuse _ _ _).keepsFiles)
    · have hb := hh.trans (keepsFiles_readBuffer header.json_length session₁)
      generalize session₁.readBuffer header.json_length = read at hb ⊢
      obtain ⟨_ | _, session₂⟩ := read
      · exact .inl hb
      · rcases readPost_files header session₂ with hk | ⟨moment, hm, hk⟩
        · exact .inl (hb.trans hk)
        · exact .inr ⟨session₂, moment, hb, hm, hk⟩

/-- None of these files has a name that is made up for an upload. -/
def Fresh (files : List (Bytes × Bytes)) (session : TcpSession) : Prop :=
  ∀ k dir, session.uploadDir k = .ok dir → ∀ f ∈ files, f.1 ≠ session.uploadPath k dir

/-- At most one upload is there besides these files, at the path that the session holds. -/
def OneUpload (files : List (Bytes × Bytes)) (session : TcpSession) : Prop :=
  session.disk.files = files ∨ session.uploaded_model_path ≠ [] ∧
    ∃ content, session.disk.files = files ++ [(session.uploaded_model_path, content)]

structure Uploads (files : List (Bytes × Bytes)) (session : TcpSession) : Prop where
  fresh : session.Fresh files
  path : session.uploaded_model_path ≠ [] → ∀ f ∈ files, f.1 ≠ session.uploaded_model_path
  one : session.OneUpload files

structure Cleaned (files : List (Bytes × Bytes)) (session : TcpSession) : Prop where
  fresh : session.Fresh files
  path : session.uploaded_model_path = []
  files : session.disk.files = files

variable {files : List (Bytes × Bytes)}

theorem Cleaned.uploads (h : session.Cleaned files) : session.Uploads files :=
  ⟨h.fresh, fun hp => absurd h.path hp, .inl h.files⟩

theorem Uploads.keepsFiles (h : session.Uploads files) (hk : session.KeepsFiles session') :
    session'.Uploads files := by
  obtain ⟨_, _, _, rfl⟩ := hk
  exact ⟨h.fresh, h.path, h.one⟩

theorem Cleaned.keepsFiles (h : session.Cleaned files) (hk : session.KeepsFiles session') :
    session'.Cleaned files := by
  obtain ⟨_, _, _, rfl⟩ := hk
  exact ⟨h.fresh, h.path, h.files⟩

theorem filter_files {path : Bytes} (h : ∀ f ∈ files, f.1 ≠ path) :
    files.filter (fun f => f.1 ≠ path) = files := by
  rw [List.filter_eq_self]
  intro f hf
  exact decide_eq_true (h f hf)

theorem Uploads.remove (h : session.Uploads files) (hp : session.uploaded_model_path ≠ []) :
    (session.disk.remove session.uploaded_model_path).files = files := by
  have hself := filter_files (h.path hp)
  rw [Disk.remove]
  rcases h.one with hf | ⟨_, content, hf⟩
  · simp only [hf, hself]
  · simp only [hf, List.filter_append, hself]
    simp

theorem Uploads.cleanup (h : session.Uploads files) : session.cleanupUpload.Cleaned files := by
  rw [cleanupUpload]
  split_ifs with hp
  · refine ⟨h.fresh, hp, ?_⟩
    rcases h.one with hf | ⟨hne, _⟩
    · exact hf
    · exact absurd hp hne
  · exact ⟨h.fresh, rfl, h.remove hp⟩

theorem Uploads.atHeader (h : session.Uploads files) : session.atHeader.Cleaned files :=
  (h.keepsFiles ⟨_, [], _, rfl⟩).cleanup

theorem Cleaned.receiving (h : session.Cleaned files) (hr : session.Receiving session') :
    session'.Uploads files := by
  cases hr with
  | named hd => exact ⟨h.fresh, fun _ => h.fresh _ _ hd, .inl h.files⟩
  | written content socket hd =>
    refine ⟨h.fresh, fun _ => h.fresh _ _ hd, .inr ⟨joinPath_ne_nil _ _, content, ?_⟩⟩
    have hself := filter_files (h.fresh _ _ hd)
    change session.disk.files.filter _ ++ _ = _
    rw [h.files]
    exact congrArg (· ++ _) hself

theorem Uploads.doRead (h : session.Uploads files) : session.doRead.2.Uploads files := by
  rcases doRead_files session with hk | ⟨before, moment, hb, hm, hk⟩
  · exact (h.atHeader.keepsFiles hk).uploads
  · exact ((h.atHeader.keepsFiles hb).receiving hm).keepsFiles hk

theorem Uploads.round (h : session.Uploads files) (services : Services M) (manager : M) :
    (session.round services manager).2.2.Uploads files := by
  have hr := h.doRead
  rw [TcpSession.round]
  generalize session.doRead = read at hr ⊢
  obtain ⟨e | _ | header, session'⟩ := read
  · exact hr
  · exact hr
  · exact hr.keepsFiles (onlySends_serve services manager header session').keepsFiles

/-- The states in which `run` is about to call `do_read`, whatever is called in its rounds. -/
def Running (M : Type) (files : List (Bytes × Bytes)) : TcpSession → Prop :=
  Reachable (Cleaned files) fun session session' => ∃ services : Services M,
    Again services session session'

theorem Running.uploads (h : Running M files session) : session.Uploads files := by
  apply h.invariant (fun _ hs => hs.uploads)
  rintro s s' _ hs ⟨services, manager, manager', hround⟩
  have := hs.round services manager
  rwa [hround] at this

/-- The states that a session is in during a round of `run`, its end by a return or an exception
included. What it has read and sent so far is left open. -/
inductive Moment (services : Services M) (manager : M) (session : TcpSession) :
    TcpSession → Prop where
  | start : Moment services manager session session
  | removed : session.uploaded_model_path ≠ [] → Moment services manager session
    { session with buffer := [], disk := session.disk.remove session.uploaded_model_path }
  | reading : session.atHeader.KeepsFiles moment → Moment services manager session moment
  | receiving : session.atHeader.KeepsFiles before → before.Receiving moment →
    Moment services manager session moment
  | read : Moment services manager session session.doRead.2
  | served : Moment services manager session (session.round services manager).2.2

theorem Uploads.moment {services : Services M} {moment : TcpSession} (h : session.Uploads files)
    (hm : Moment services manager session moment) : moment.Uploads files := by
  cases hm with
  | start => exact h
  | removed hp => exact ⟨h.fresh, h.path, .inl (h.remove hp)⟩
  | reading hk => exact (h.atHeader.keepsFiles hk).uploads
  | receiving hk hr => exact (h.atHeader.keepsFiles hk).receiving hr
  | read => exact h.doRead
  | served => exact h.round services manager

/-- In every run, no more than one upload is there at any moment, and its path is the one that the
session holds. None is there when a header is read, and none when the session has been destroyed,
whatever it was doing. -/
theorem no_upload_leaked (h : Running M files session) :
    session.atHeader.disk.files = files ∧
      ∀ (services : Services M) manager moment, Moment services manager session moment →
        moment.OneUpload files ∧ moment.cleanupUpload.disk.files = files := by
  refine ⟨h.uploads.atHeader.files, ?_⟩
  intro services manager moment hm
  have hu := h.uploads.moment hm
  exact ⟨hu.one, hu.cleanup.files⟩

theorem no_upload_leaked_once :
    (reading [uploadFrame.bytes]).doRead.2.disk.files.map Prod.snd = [[1, 2, 3]] ∧
      (reading [uploadFrame.bytes]).doRead.2.cleanupUpload.disk.files = [] := by
  have hfresh : (reading [uploadFrame.bytes]).Fresh [] := by
    intro k dir hd f hf
    cases hf
  have hrun : Running Unit [] (reading [uploadFrame.bytes]) := .start ⟨hfresh, rfl, rfl⟩
  exact ⟨by decide, ((no_upload_leaked hrun).2 emptyServer () _ .read).2⟩

end TcpSession
end OnnxruntimeServer
