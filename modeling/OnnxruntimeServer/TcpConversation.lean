import OnnxruntimeServer.ExecuteTransports
import OnnxruntimeServer.HeaderCodec
import OnnxruntimeServer.Reply
import OnnxruntimeServer.TcpUpload

namespace OnnxruntimeServer
set_option autoImplicit true

/-- A response as the peer reads it. -/
structure WireReply where
  type : Int16
  text : Bytes
  deriving DecidableEq

def WireReply.bytes (reply : WireReply) : Bytes :=
  (TcpSession.resHeader reply.type reply.text.length).memory ++ reply.text

/-- The responses that a peer takes from the bytes it has been sent, each by the lengths in its
header, or `none` where the bytes are not such responses. -/
def decodeReplies : Nat → Bytes → Option (List WireReply)
  | _, [] => some []
  | 0, _ => none
  | fuel + 1, bytes =>
    let header := (ProtocolHeader.ofMemory (bytes.take ProtocolHeader.size)).ntoh
    let rest := bytes.drop ProtocolHeader.size
    let size := header.json_length.toInt.toNat
    if rest.length < size ∨ header.length ≠ header.json_length ∨ header.post_length ≠ 0 then none
    else (decodeReplies fuel (rest.drop size)).map (⟨header.type, rest.take size⟩ :: ·)

theorem decodeReplies_succ (fuel : Nat) (h : bytes ≠ []) : decodeReplies (fuel + 1) bytes =
    let header := (ProtocolHeader.ofMemory (bytes.take ProtocolHeader.size)).ntoh
    let rest := bytes.drop ProtocolHeader.size
    let size := header.json_length.toInt.toNat
    if rest.length < size ∨ header.length ≠ header.json_length ∨ header.post_length ≠ 0 then none
    else (decodeReplies fuel (rest.drop size)).map (⟨header.type, rest.take size⟩ :: ·) := by
  cases bytes with
  | nil => exact absurd rfl h
  | cons b bs => rfl

namespace Frame

/-- Whether the last part of the frame is a model that is stored in a file. -/
def uploads (frame : Frame) : Bool :=
  frame.header.type = Task.CREATE_SESSION && !frame.post.isEmpty

def body (lib : JsonLibrary) (frame : Frame) : Except Exception Json :=
  if frame.json.isEmpty then .ok (.object []) else parseRequestJson lib frame.json

/-- The task that a frame asks for, where `path` is the file that its model is stored in. -/
def task (lib : JsonLibrary) (path : Bytes) (frame : Frame) : Except Exception Task := do
  let body ← frame.body lib
  if frame.uploads then do
    let json := if body.isObject then body else .object []
    let option ← (json.member (ascii "option")).assign (ascii "path") (.string path)
    let json ← json.assign (ascii "option") option
    createTask frame.header.type json none
  else createTask frame.header.type body (if frame.post.isEmpty then none else some frame.post)

/-- What a frame is answered with: the text of the result under the type of the request, or the
error under the type `-1`, or nothing where the error cannot be told. -/
def reply (services : Services M) (manager : M) (path : Bytes) (frame : Frame) :
    Except Exception WireReply × M :=
  let (manager, result) := services.handle manager (frame.task services.json path)
  match result.bind (Json.dump services.json.dumpFloat) with
  | .ok text => (.ok ⟨frame.header.type, text⟩, manager)
  | .error e => ((whatToJson e.kind.type e.what).map (WireReply.mk (-1)), manager)

end Frame

/-- The replies to a list of frames, up to the first error that cannot be told, and how the session
ends. What other clients do to the manager before the `k`-th of them is `env k`, and `path made` is
the file of the next upload. -/
def conversation (services : Services M) (env : Nat → M → M) (path : Nat → Bytes) :
    Nat → Nat → M → List Frame → List WireReply × Turn × M
  | k, _, manager, [] => ([], .stop, env k manager)
  | k, made, manager, frame :: frames =>
    match frame.reply services (env k manager) (path made) with
    | (.error e, manager) => ([], .escaped e, manager)
    | (.ok reply, manager) =>
      let rest := conversation services env path (k + 1) (made + frame.uploads.toNat) manager frames
      (reply :: rest.1, rest.2)

namespace TcpSession

/-- `run`, for at most `fuel` rounds: how its last round ends, and what it leaves behind. Where that
goes on, the loop has not been left. What other clients do to the manager before the `k`-th round is
`env k`. -/
def run (services : Services M) (env : Nat → M → M) :
    Nat → Nat → M → TcpSession → Turn × M × TcpSession
  | 0, _, manager, session => (.again, manager, session)
  | fuel + 1, k, manager, session =>
    match session.round services (env k manager) with
    | (.again, manager, session) => run services env fuel (k + 1) manager session
    | (.stop, manager, session) => (.stop, manager, session)
    | (.escaped e, manager, session) => (.escaped e, manager, session)

variable {session : TcpSession} {frame : Frame} {header : ProtocolHeader}

def uploadFile (session : TcpSession) (k : Nat) : Bytes :=
  match session.uploadDir k with
  | .ok dir => session.uploadPath k dir
  | .error _ => []

theorem uploadDir_ok (hd : session.Stores) (k : Nat) : ∃ dir, session.uploadDir k = .ok dir := by
  rw [uploadDir]
  by_cases h : session.model_upload_dir = []
  · rw [if_pos h]
    exact (hd k).2.2.resolve_left (not_not.2 h)
  · exact ⟨_, if_neg h⟩

theorem uploadFile_ne_nil (hd : session.Stores) (k : Nat) : session.uploadFile k ≠ [] := by
  obtain ⟨dir, hdir⟩ := uploadDir_ok hd k
  rw [uploadFile, hdir]
  exact joinPath_ne_nil _ _

theorem SameSetup.uploadFile {session' : TcpSession} (h : SameSetup session session') (k : Nat) :
    session'.uploadFile k = session.uploadFile k := by
  simp only [TcpSession.uploadFile, uploadDir, uploadPath, h.model_upload_dir, h.fate]

theorem path_readUpload (hd : session.Stores) (header : ProtocolHeader) :
    (session.readUpload header).2.uploaded_model_path = session.uploadFile session.disk.made := by
  obtain ⟨dir, hdir⟩ := uploadDir_ok hd session.disk.made
  have hopens := (hd session.disk.made).1
  rw [readUpload_eq, uploadFile, hdir]
  simp only [hopens, Bool.not_true, Bool.false_eq_true, if_false]
  split_ifs <;> rfl

theorem readUpload_valid (hc : ∀ c ∈ session.socket.chunks, c ≠ []) (hd : session.Stores)
    (hn : header.post_length.toInt = (n : Nat)) (hl : n ≤ session.socket.chunks.flatten.length) :
    ∃ files, session.readUpload header =
      (.ok (some header), { session.withChunks (Chunks.advance n session.socket.chunks) with
        uploaded_model_path := session.uploadFile session.disk.made
        disk := { session.disk with files, made := session.disk.made + 1 } }) := by
  obtain ⟨path, files, _, _, hread⟩ := readUpload_of_le hd hc hn hl
  have hpath := path_readUpload hd header
  rw [hread] at hpath
  obtain rfl : path = session.uploadFile session.disk.made := hpath
  exact ⟨files, hread⟩

/-- What `do_read` leaves behind when it has read a valid frame. -/
structure AfterFrame (session session' : TcpSession) (frame : Frame) : Prop where
  socket : session'.socket =
    { session.socket with chunks := Chunks.advance frame.bytes.length session.socket.chunks }
  setup : SameSetup session session'
  buffer : session'.buffer = if frame.uploads then frame.json else frame.json ++ frame.post
  path : session'.uploaded_model_path =
    if frame.uploads then session.uploadFile session.disk.made else []
  made : session'.disk.made = session.disk.made + frame.uploads.toNat
  remote_endpoint : session'.remote_endpoint = session.remote_endpoint

theorem post_pos_iff (ha : session.Accepts frame) :
    0 < frame.header.post_length ↔ frame.post ≠ [] := by
  rw [Int64.lt_iff_toInt_lt, Int64.toInt_zero, ha.post_length, ne_eq, ← List.length_eq_zero_iff]
  omega

theorem json_pos_iff (ha : session.Accepts frame) :
    0 < frame.header.json_length ↔ frame.json ≠ [] := by
  rw [Int64.lt_iff_toInt_lt, Int64.toInt_zero, ha.json_length, ne_eq, ← List.length_eq_zero_iff]
  omega

theorem uploads_iff (ha : session.Accepts frame) : frame.uploads = true ↔
    frame.header.type = Task.CREATE_SESSION ∧ 0 < frame.header.post_length := by
  rw [post_pos_iff ha, Frame.uploads]
  simp

theorem readBody_valid (ha : session.Accepts frame) (hd : session.Stores)
    (hc : ∀ c ∈ session.socket.chunks, c ≠ []) (hb : session.buffer = [])
    (hu : session.uploaded_model_path = [])
    (hs : session.socket.chunks.flatten = frame.json ++ (frame.post ++ rest)) :
    ∃ files, session.readBody frame.header = (.ok (some frame.header),
      { session.withChunks
          (Chunks.advance (frame.json.length + frame.post.length) session.socket.chunks) with
        buffer := if frame.uploads then frame.json else frame.json ++ frame.post
        uploaded_model_path := if frame.uploads then session.uploadFile session.disk.made else []
        disk := { session.disk with files, made := session.disk.made + frame.uploads.toNat } }) := by
  have hl : frame.json.length ≤ session.socket.chunks.flatten.length := by
    rw [hs, List.length_append]
    omega
  have hread := readBuffer_of_le hc ha.json_length hl
  have hs' : (Chunks.advance frame.json.length session.socket.chunks).flatten =
      frame.post ++ rest := by
    rw [Chunks.flatten_advance, hs, List.drop_left]
  have hl' : frame.post.length ≤
      (Chunks.advance frame.json.length session.socket.chunks).flatten.length := by
    rw [hs', List.length_append]
    omega
  have hc' : ∀ c ∈ ({ session.withChunks
      (Chunks.advance frame.json.length session.socket.chunks) with
      buffer := frame.json } : TcpSession).socket.chunks, c ≠ [] :=
    Chunks.nonempty_advance hc frame.json.length
  have hadd := Chunks.advance_add frame.post.length frame.json.length session.socket.chunks
  rw [readBody, acceptsHeader_of_accepts ha, hread, hb, hs, List.take_left, List.nil_append]
  simp only [Bool.not_true, Bool.false_eq_true, if_false]
  rw [readPost]
  by_cases hup : frame.uploads = true
  · obtain ⟨files, hupload⟩ := readUpload_valid hc' hd ha.post_length hl'
    refine ⟨files, ?_⟩
    rw [if_pos ((uploads_iff ha).1 hup), hupload, hup]
    simp only [withChunks, hadd, if_true, Bool.toNat_true]
    rfl
  · refine ⟨session.disk.files, ?_⟩
    rw [if_neg fun h => hup ((uploads_iff ha).2 h)]
    rw [Bool.not_eq_true] at hup
    rw [hup]
    by_cases hpos : 0 < frame.header.post_length
    · have hpost := readBuffer_of_le hc' ha.post_length hl'
      rw [if_pos hpos, hpost]
      simp only [withChunks, hadd, hs', List.take_left, Bool.false_eq_true, if_false,
        Bool.toNat_false, Nat.add_zero, hu]
    · have hnil : frame.post = [] := not_not.1 fun h => hpos ((post_pos_iff ha).2 h)
      rw [if_neg hpos]
      simp only [withChunks, hnil, List.append_nil, List.length_nil, Nat.add_zero,
        Bool.false_eq_true, if_false, Bool.toNat_false, hu]

theorem doRead_valid (ha : session.Accepts frame) (hd : session.Stores)
    (hc : ∀ c ∈ session.socket.chunks, c ≠ [])
    (hs : session.socket.chunks.flatten = frame.bytes ++ rest)
    (hw : ∀ k, 0 < k → k < ProtocolHeader.size → ¬ Chunks.Cut session.socket.chunks k) :
    ∃ session', session.doRead = (.ok (some frame.header), session') ∧
      AfterFrame session session' frame := by
  obtain ⟨files, hclean⟩ := cleanupUpload_spec { session with buffer := [] }
  have hs₀ : session.socket.chunks.flatten =
      frame.header.wire ++ (frame.json ++ (frame.post ++ rest)) := by
    rw [hs, Frame.bytes]
    simp only [List.append_assoc]
  have hc₀ : ∀ c ∈ ({ session with
      buffer := [], uploaded_model_path := [],
      disk := { session.disk with files } } : TcpSession).socket.chunks, c ≠ [] := hc
  obtain ⟨hcut, hread⟩ := readHeader_some_iff hc₀ hs₀
  have hs₁ : (Chunks.advance ProtocolHeader.size session.socket.chunks).flatten =
      frame.json ++ (frame.post ++ rest) := by
    rw [Chunks.flatten_advance, hs₀, ← frame.header.length_wire, List.drop_left]
  have ha₁ : (withChunks (Chunks.advance ProtocolHeader.size session.socket.chunks) { session with
      buffer := [], uploaded_model_path := [], disk := { session.disk with files } }).Accepts frame :=
    ⟨ha.1, ha.2, ha.3, ha.4, ha.5⟩
  obtain ⟨files', hbody⟩ := readBody_valid ha₁ hd (Chunks.nonempty_advance hc _) rfl rfl hs₁
  have hadd := Chunks.advance_add (frame.json.length + frame.post.length) ProtocolHeader.size
    session.socket.chunks
  have hlen : frame.bytes.length =
      ProtocolHeader.size + (frame.json.length + frame.post.length) := by
    rw [Frame.bytes, List.length_append, List.length_append, frame.header.length_wire, Nat.add_assoc]
  have hdo : session.doRead = readBody frame.header
      (withChunks (Chunks.advance ProtocolHeader.size session.socket.chunks) { session with
        buffer := [], uploaded_model_path := [], disk := { session.disk with files } }) := by
    rw [doRead, hclean, hread (hcut.2 hw)]
  refine ⟨_, hdo.trans hbody, ?_, ⟨rfl, rfl, rfl, rfl⟩, rfl, rfl, rfl, rfl⟩
  rw [hlen, ← hadd]
  rfl

/-- The task that `run` makes of a valid frame is the one that the frame asks for. -/
theorem requestTask_eq {session' : TcpSession} (ha : session.Accepts frame) (hd : session.Stores)
    (h : AfterFrame session session' frame) (lib : JsonLibrary) :
    session'.requestTask lib frame.header =
      frame.task lib (session.uploadFile session.disk.made) := by
  have hjson : session'.buffer.take frame.header.json_length.toInt.toNat = frame.json := by
    rw [h.buffer, ha.json_length, Int.toNat_natCast]
    split_ifs
    · exact List.take_length
    · exact List.take_left
  have hbody : session'.bodyJson lib frame.header = frame.body lib := by
    rw [bodyJson, hjson, Frame.body]
    by_cases hpos : 0 < frame.header.json_length
    · rw [if_pos hpos, if_neg (by simpa using (json_pos_iff ha).1 hpos)]
    · rw [if_neg hpos, if_pos (by simpa using mt (json_pos_iff ha).2 hpos)]
  have hpath := h.path
  rw [requestTask, requestJson, hbody, Frame.task]
  cases frame.body lib with
  | error e => rfl
  | ok body =>
    by_cases hup : frame.uploads = true
    · rw [if_pos hup] at hpath
      have hne := uploadFile_ne_nil hd session.disk.made
      simp only [requestPost, hpath, if_pos hne, if_pos hup, assignPath, bind, Except.bind]
      cases ((if body.isObject then body else .object []).member (ascii "option")).assign
        (ascii "path") (.string (session.uploadFile session.disk.made)) with
      | error e => rfl
      | ok option => rfl
    · rw [if_neg hup] at hpath
      have hpost : session'.requestPost frame.header =
          if frame.post.isEmpty then none else some frame.post := by
        rw [requestPost, if_neg (by simp [hpath]), h.buffer, if_neg hup, ha.json_length,
          ha.post_length, Int.toNat_natCast, Int.toNat_natCast, List.drop_left, List.take_length]
        by_cases hpos : 0 < frame.header.post_length
        · rw [if_pos hpos, if_neg (by simpa using (post_pos_iff ha).1 hpos)]
        · rw [if_neg hpos, if_pos (by simpa using mt (post_pos_iff ha).2 hpos)]
      simp only [hpost, hpath, ne_eq, not_true_eq_false, if_false, if_neg hup]
      rfl

theorem getRemoteEndpoint_ok {session' : TcpSession} (h : session.getRemoteEndpoint = .ok session') :
    session'.PeerKnown ∧ ∃ r, session' = { session with remote_endpoint := r } := by
  refine ⟨peerKnown_after h, ?_⟩
  rw [getRemoteEndpoint] at h
  split at h
  · exact ⟨session.remote_endpoint, (Except.ok.inj h).symm⟩
  · split at h
    · cases h
    · exact ⟨_, (Except.ok.inj h).symm⟩

theorem doWrite_reply (reply : WireReply) (session : TcpSession) :
    ∃ sent, session.doWrite (resHeader reply.type reply.text.length) reply.text =
      (decide (0 < sent), { session with socket :=
        { session.socket with writes := session.socket.writes ++ [(reply.bytes, sent)] } }) := by
  rw [doWrite, Socket.writeSome]
  cases session.socket.fate session.socket.writes.length with
  | none => exact ⟨0, rfl⟩
  | some n => exact ⟨_, rfl⟩

structure AfterReply (session session' : TcpSession) (writes : List (Bytes × Nat)) : Prop where
  known : session'.PeerKnown
  socket : session'.socket = { session.socket with writes := session.socket.writes ++ writes }
  setup : SameSetup session session'
  made : session'.disk.made = session.disk.made

theorem answer_eq (hp : session.PeerKnown) (services : Services M) (manager : M)
    (header : ProtocolHeader) :
    ∃ session' r, session.answer services manager header =
      ((services.handle manager (session.requestTask services.json header)).2.bind
          (Json.dump services.json.dumpFloat),
        (services.handle manager (session.requestTask services.json header)).1, session') ∧
      session' = { session with remote_endpoint := r } ∧ session'.PeerKnown := by
  rw [answer]
  cases session.requestTask services.json header with
  | error e => exact ⟨session, _, rfl, rfl, hp⟩
  | ok task =>
    simp only [Services.handle]
    rcases services.run manager task with ⟨manager', e | result⟩
    · exact ⟨session, _, rfl, rfl, hp⟩
    · obtain ⟨session', he⟩ := peerKnown_iff.1 hp
      obtain ⟨hknown, r, hs⟩ := getRemoteEndpoint_ok he
      simp only [he]
      exact ⟨session', r, rfl, hs, hknown⟩

theorem serve_ok (hp : session.PeerKnown) {services : Services M}
    (ht : session.requestTask services.json frame.header = frame.task services.json path)
    (hr : frame.reply services manager path = (.ok reply, manager')) :
    ∃ turn session' sent, session.serve services manager frame.header = (turn, manager', session') ∧
      AfterReply session session' [(reply.bytes, sent)] ∧
      (turn = .again ∨ turn = .stop ∧ sent = 0) := by
  obtain ⟨session₁, r, ha, hs₁, hp₁⟩ := answer_eq hp services manager frame.header
  have hafter : ∀ (session' : TcpSession) r sent, session'.PeerKnown →
      session' = { session with remote_endpoint := r, socket := { session.socket with
        writes := session.socket.writes ++ [(reply.bytes, sent)] } } →
      AfterReply session session' [(reply.bytes, sent)] := by
    rintro _ r sent hp' rfl
    exact ⟨hp', rfl, ⟨rfl, rfl, rfl, rfl⟩, rfl⟩
  rw [ht] at ha
  rw [serve, ha]
  rw [Frame.reply] at hr
  rcases hh : services.handle manager (frame.task services.json path) with ⟨manager₁, result⟩
  rw [hh] at hr
  dsimp only at hr ⊢
  cases hb : result.bind (Json.dump services.json.dumpFloat) with
  | ok text =>
    rw [hb] at hr
    obtain ⟨hreply, rfl⟩ := Prod.mk.inj hr
    obtain rfl := Except.ok.inj hreply
    obtain ⟨sent, hw⟩ := doWrite_reply ⟨frame.header.type, text⟩ session₁
    dsimp only at hw ⊢
    rw [hw, hs₁]
    by_cases hsent : 0 < sent
    · rw [decide_eq_true hsent]
      exact ⟨_, _, sent, rfl, hafter _ r sent (by rw [hs₁] at hp₁; exact hp₁) rfl, .inl rfl⟩
    · rw [decide_eq_false hsent]
      exact ⟨_, _, sent, rfl, hafter _ r sent (by rw [hs₁] at hp₁; exact hp₁) rfl,
        .inr ⟨rfl, by omega⟩⟩
  | error e =>
    rw [hb] at hr
    obtain ⟨session₂, he⟩ := peerKnown_iff.1 hp₁
    obtain ⟨hp₂, r', hs₂⟩ := getRemoteEndpoint_ok he
    dsimp only at hr ⊢
    rw [he]
    dsimp only
    cases hw : whatToJson e.kind.type e.what with
    | error e' =>
      rw [hw] at hr
      cases hr
    | ok text =>
      rw [hw] at hr
      obtain ⟨hreply, rfl⟩ := Prod.mk.inj hr
      obtain rfl := Except.ok.inj hreply
      obtain ⟨sent, hwrite⟩ := doWrite_reply ⟨-1, text⟩ session₂
      have hsend : session₂.sendError e.kind.type e.what =
          .ok (session₂.doWrite (resHeader (-1) text.length) text) := by
        rw [sendError, hw]
        rfl
      dsimp only at hwrite
      rw [hsend, hwrite]
      refine ⟨_, _, sent, rfl, hafter _ r' sent ?_ ?_, .inl rfl⟩
      · exact hp₂
      · rw [hs₂, hs₁]

theorem serve_error (hp : session.PeerKnown) {services : Services M}
    (ht : session.requestTask services.json frame.header = frame.task services.json path)
    (hr : frame.reply services manager path = (.error e, manager')) :
    ∃ session', session.serve services manager frame.header = (.escaped e, manager', session') ∧
      session'.socket = session.socket := by
  obtain ⟨session₁, r, ha, hs₁, hp₁⟩ := answer_eq hp services manager frame.header
  rw [ht] at ha
  rw [serve, ha]
  rw [Frame.reply] at hr
  rcases hh : services.handle manager (frame.task services.json path) with ⟨manager₁, result⟩
  rw [hh] at hr
  dsimp only at hr ⊢
  cases hb : result.bind (Json.dump services.json.dumpFloat) with
  | ok text =>
    rw [hb] at hr
    cases hr
  | error thrown =>
    rw [hb] at hr
    obtain ⟨session₂, he⟩ := peerKnown_iff.1 hp₁
    obtain ⟨_, r', hs₂⟩ := getRemoteEndpoint_ok he
    dsimp only at hr ⊢
    rw [he]
    dsimp only
    rw [sendError]
    cases hw : whatToJson thrown.kind.type thrown.what with
    | ok text =>
      rw [hw] at hr
      cases hr
    | error e' =>
      rw [hw] at hr
      obtain ⟨herror, rfl⟩ := Prod.mk.inj hr
      obtain rfl := Except.error.inj herror
      exact ⟨session₂, rfl, by rw [hs₂, hs₁]⟩

theorem doRead_end (h : session.socket.chunks = []) :
    session.doRead.1 = .ok none ∧ session.doRead.2.socket = session.socket := by
  refine ⟨doRead_eof h, ?_⟩
  obtain ⟨files, hclean⟩ := cleanupUpload_spec { session with buffer := [] }
  rw [doRead, hclean, readHeader]
  simp only [Socket.readSome, h, Chunks.readSome]
  change ({ session.socket with chunks := [] } : Socket) = session.socket
  rw [← h]

theorem length_bytes_pos (reply : WireReply) : 0 < reply.bytes.length := by
  obtain ⟨response, _, _, hbytes⟩ := resHeader_response reply.type reply.text
  rw [WireReply.bytes, hbytes, Response.bytes, List.length_append, response.header.length_wire,
    ProtocolHeader.size]
  omega

theorem HeadersWhole.of_nil {chunks : List Bytes} (hc : ∀ c ∈ chunks, c ≠ [])
    (h : chunks.flatten = []) : chunks = [] := by
  cases chunks with
  | nil => rfl
  | cons c cs =>
    rw [List.flatten_cons] at h
    exact absurd (List.append_eq_nil_iff.1 h).1 (hc c List.mem_cons_self)

/-- The rounds of `run` on valid frames: as long as the socket takes whatever it is offered whole,
the replies of the conversation are offered, and nothing else. -/
theorem run_frames (services : Services M) (env : Nat → M → M)
    (hs : session.socket.chunks.flatten = frames.flatMap Frame.bytes)
    (hc : ∀ c ∈ session.socket.chunks, c ≠ []) (ha : ∀ frame ∈ frames, session.Accepts frame)
    (hd : session.Stores) (hp : session.PeerKnown) (hw : HeadersWhole session.socket.chunks frames)
    (hf : frames.length < fuel)
    (hwhole : ∀ w ∈ (run services env fuel k manager session).2.2.socket.writes,
      w.2 = w.1.length) :
    ∃ writes, (run services env fuel k manager session).2.2.socket.writes =
        session.socket.writes ++ writes ∧
      writes.map Prod.fst = (conversation services env session.uploadFile k session.disk.made
        manager frames).1.map WireReply.bytes ∧
      ((run services env fuel k manager session).1,
        (run services env fuel k manager session).2.1) =
        (conversation services env session.uploadFile k session.disk.made manager frames).2 := by
  induction frames generalizing fuel k manager session with
  | nil =>
    obtain ⟨fuel, rfl⟩ := Nat.exists_eq_succ_of_ne_zero (Nat.ne_zero_of_lt hf)
    obtain ⟨hread, hsocket⟩ := doRead_end (HeadersWhole.of_nil hc hs)
    rcases hdo : session.doRead with ⟨result, session'⟩
    rw [hdo] at hread hsocket
    dsimp only at hread hsocket
    subst hread
    have hround : session.round services (env k manager) = (.stop, env k manager, session') := by
      rw [round, hdo]
    rw [run, hround, conversation]
    exact ⟨[], by rw [hsocket, List.append_nil], rfl, rfl⟩
  | cons frame frames ih =>
    obtain ⟨fuel, rfl⟩ := Nat.exists_eq_succ_of_ne_zero (Nat.ne_zero_of_lt hf)
    obtain ⟨hfirst, hrest⟩ := (headersWhole_cons _ _ _).1 hw
    have haccepts := ha frame List.mem_cons_self
    obtain ⟨session₁, hread, hafter⟩ := doRead_valid haccepts hd hc hs hfirst
    have hp₁ : session₁.PeerKnown := by
      rw [PeerKnown, hafter.remote_endpoint, hafter.socket]
      exact hp
    have htask := requestTask_eq haccepts hd hafter services.json
    have hround : session.round services (env k manager) =
        session₁.serve services (env k manager) frame.header := by
      rw [round, hread]
    rw [run, hround] at hwhole ⊢
    rw [conversation]
    rcases hr : frame.reply services (env k manager) (session.uploadFile session.disk.made) with
      ⟨e | reply, manager'⟩
    · obtain ⟨session₂, hserve, hsocket⟩ := serve_error hp₁ htask hr
      rw [hserve]
      refine ⟨[], ?_, rfl, rfl⟩
      rw [hsocket, hafter.socket, List.append_nil]
    · obtain ⟨turn, session₂, sent, hserve, hreply, hturn⟩ := serve_ok hp₁ htask hr
      have hwrites : session₂.socket.writes = session.socket.writes ++ [(reply.bytes, sent)] := by
        rw [hreply.socket, hafter.socket]
      rw [hserve] at hwhole ⊢
      rcases hturn with rfl | ⟨rfl, rfl⟩
      · have hsetup : SameSetup session session₂ :=
          ⟨hreply.setup.1.trans hafter.setup.1, hreply.setup.2.trans hafter.setup.2,
            hreply.setup.3.trans hafter.setup.3, hreply.setup.4.trans hafter.setup.4⟩
        have hchunks : session₂.socket.chunks =
            Chunks.advance frame.bytes.length session.socket.chunks := by
          rw [hreply.socket, hafter.socket]
        have hpath : session₂.uploadFile = session.uploadFile := funext hsetup.uploadFile
        have hs₂ : session₂.socket.chunks.flatten = frames.flatMap Frame.bytes := by
          rw [hchunks, Chunks.flatten_advance, hs, List.flatMap_cons, List.drop_left]
        obtain ⟨writes, hout, hmap, hend⟩ := ih hs₂
          (by rw [hchunks]; exact Chunks.nonempty_advance hc _)
          (fun f hmem => hsetup.accepts (ha f (List.mem_cons_of_mem _ hmem)))
          (hsetup.stores hd) hreply.known (by rw [hchunks]; exact hrest)
          (by rw [List.length_cons] at hf; omega) hwhole
        rw [hpath, hreply.made, hafter.made] at hmap hend
        refine ⟨(reply.bytes, sent) :: writes, ?_, ?_, hend⟩
        · dsimp only
          rw [hout, hwrites, List.append_assoc]
          rfl
        · rw [List.map_cons, hmap]
          rfl
      · have hbad := hwhole (reply.bytes, 0) (by dsimp only; rw [hwrites]; simp)
        have hpos := length_bytes_pos reply
        dsimp only at hbad
        omega

theorem decodeReplies_nil (fuel : Nat) : decodeReplies fuel [] = some [] := by
  cases fuel <;> rfl

theorem decodeReplies_cons {reply : WireReply} (hl : reply.text.length < 2 ^ 63) (fuel : Nat)
    (rest : Bytes) : decodeReplies (fuel + 1) (reply.bytes ++ rest) =
      (decodeReplies fuel rest).map (reply :: ·) := by
  obtain ⟨response, _, _, hbytes⟩ := resHeader_response reply.type reply.text
  have hsize : ProtocolHeader.size ≤ reply.bytes.length := by
    rw [WireReply.bytes, hbytes, Response.bytes, List.length_append, response.header.length_wire]
    exact Nat.le_add_right _ _
  have hannounces : Announces reply.bytes reply.type reply.text :=
    announces_resHeader reply.type hl
  obtain ⟨size, hsize', hheader⟩ := hannounces.header
  have htake : (reply.bytes ++ rest).take ProtocolHeader.size =
      reply.bytes.take ProtocolHeader.size := List.take_append_of_le_length hsize
  have hdrop : (reply.bytes ++ rest).drop ProtocolHeader.size = reply.text ++ rest := by
    rw [List.drop_append_of_le_length hsize, hannounces.body]
  have hne : reply.bytes ++ rest ≠ [] := by
    intro h
    have hpos := length_bytes_pos reply
    rw [(List.append_eq_nil_iff.1 h).1] at hpos
    cases hpos
  rw [decodeReplies_succ fuel hne, htake, hheader, hdrop]
  dsimp only
  rw [hsize', Int.toNat_natCast, if_neg, List.drop_left, List.take_left]
  rintro (h | h | h)
  · rw [List.length_append] at h
    omega
  · exact h rfl
  · exact h rfl

/-- A peer that goes by the lengths in the headers gets the replies back. -/
theorem decodeReplies_bytes {replies : List WireReply}
    (hl : ∀ reply ∈ replies, reply.text.length < 2 ^ 63) (hf : replies.length ≤ fuel) :
    decodeReplies fuel (replies.flatMap WireReply.bytes) = some replies := by
  induction replies generalizing fuel with
  | nil =>
    rw [List.flatMap_nil, decodeReplies_nil]
  | cons reply replies ih =>
    obtain ⟨fuel, rfl⟩ := Nat.exists_eq_succ_of_ne_zero (Nat.ne_zero_of_lt hf)
    rw [List.flatMap_cons, decodeReplies_cons (hl reply List.mem_cons_self),
      ih (fun r hr => hl r (List.mem_cons_of_mem _ hr)) (Nat.le_of_succ_le_succ hf)]
    rfl

theorem length_conversation_le (services : Services M) (env : Nat → M → M) (path : Nat → Bytes)
    (k made : Nat) (manager : M) (frames : List Frame) :
    (conversation services env path k made manager frames).1.length ≤ frames.length := by
  induction frames generalizing k made manager with
  | nil => exact le_rfl
  | cons frame frames ih =>
    rw [conversation]
    rcases frame.reply services (env k manager) (path made) with ⟨_ | reply, manager'⟩
    · exact Nat.zero_le _
    · exact Nat.succ_le_succ (ih _ _ _)

theorem length_conversation (services : Services M) (env : Nat → M → M) (path : Nat → Bytes)
    (k made : Nat) (manager : M) (frames : List Frame)
    (h : (conversation services env path k made manager frames).2.1 = .stop) :
    (conversation services env path k made manager frames).1.length = frames.length := by
  induction frames generalizing k made manager with
  | nil => rfl
  | cons frame frames ih =>
    rw [conversation] at h ⊢
    rcases hr : frame.reply services (env k manager) (path made) with ⟨e | reply, manager'⟩
    · rw [hr] at h
      cases h
    · rw [hr] at h
      exact congrArg Nat.succ (ih _ _ _ h)

theorem flatMap_take {writes : List (Bytes × Nat)} (h : ∀ w ∈ writes, w.2 = w.1.length) :
    (writes.flatMap fun w => w.1.take w.2) = (writes.map Prod.fst).flatten := by
  induction writes with
  | nil => rfl
  | cons w writes ih =>
    rw [List.flatMap_cons, List.map_cons, List.flatten_cons, h w List.mem_cons_self,
      List.take_length, ih fun v hv => h v (List.mem_cons_of_mem _ hv)]

/-- The remote procedure calls of one client, whatever other clients do meanwhile: the bytes that
it is sent for its frames decode to the replies of the conversation, one for each frame in order,
until an error cannot be told, and the session ends as the conversation does. The frames must be
valid, with each header in one chunk, and the socket must take each reply whole. -/
theorem conversation_decodes (services : Services M) (env : Nat → M → M) (manager : M)
    (hs : session.socket.chunks.flatten = frames.flatMap Frame.bytes)
    (hc : ∀ c ∈ session.socket.chunks, c ≠ []) (ha : ∀ frame ∈ frames, session.Accepts frame)
    (hd : session.Stores) (hp : session.PeerKnown) (hw : HeadersWhole session.socket.chunks frames)
    (hstart : session.socket.writes = []) (hf : frames.length < fuel)
    (hwhole : ∀ w ∈ (run services env fuel 0 manager session).2.2.socket.writes,
      w.2 = w.1.length)
    (hl : ∀ reply ∈ (conversation services env session.uploadFile 0 session.disk.made manager
      frames).1, reply.text.length < 2 ^ 63) :
    decodeReplies frames.length (run services env fuel 0 manager session).2.2.socket.sent =
        some (conversation services env session.uploadFile 0 session.disk.made manager frames).1 ∧
      ((run services env fuel 0 manager session).1,
        (run services env fuel 0 manager session).2.1) =
        (conversation services env session.uploadFile 0 session.disk.made manager frames).2 ∧
      ((conversation services env session.uploadFile 0 session.disk.made manager frames).2.1 = .stop →
        (conversation services env session.uploadFile 0 session.disk.made manager
          frames).1.length = frames.length) := by
  obtain ⟨writes, hout, hmap, hend⟩ := run_frames services env hs hc ha hd hp hw hf hwhole
  rw [hstart, List.nil_append] at hout
  refine ⟨?_, hend, ?_⟩
  · rw [Socket.sent, flatMap_take hwhole, hout, hmap, ← List.flatMap_def]
    exact decodeReplies_bytes hl (length_conversation_le _ _ _ _ _ _ _)
  · exact length_conversation _ _ _ _ _ _ _

def listThenBad : List Frame := [listFrame, ⟨⟨2, 0, 0, 0⟩, [], []⟩]

def listingThenBad (limit : Nat) : TcpSession :=
  { reading (listThenBad.map Frame.bytes) with
    socket := ⟨listThenBad.map Frame.bytes, fun _ => some (limit - 1), [], .ok (ascii "peer")⟩ }

theorem conversation_decodes_listThenBad :
    decodeReplies 2
        (run emptyServer (fun _ _ => ()) 3 0 () (listingThenBad 200)).2.2.socket.sent =
      some [⟨21, ascii "[]"⟩, ⟨-1, ascii
        "\x7b\"error\":\"Invalid task type\",\"error_type\":\"bad_request_error\"\x7d"⟩] := by
  have ha : ∀ frame ∈ listThenBad, (listingThenBad 200).Accepts frame := by
    intro frame hf
    have h : (0 : Int64) ≤ 1024 := by decide
    rcases List.mem_cons.1 hf with rfl | hf
    · exact ⟨by decide, by decide, by decide, h, h⟩
    · obtain rfl := List.mem_singleton.1 hf
      exact ⟨by decide, by decide, by decide, h, h⟩
  have hw : HeadersWhole (listingThenBad 200).socket.chunks listThenBad := by
    have hne : listFrame.bytes ≠ [] := by decide
    refine (headersWhole_cons _ _ _).2 ⟨(Chunks.le_length_head_iff hne).1 (by decide), ?_⟩
    have hadv : Chunks.advance listFrame.bytes.length (listingThenBad 200).socket.chunks =
        [(⟨⟨2, 0, 0, 0⟩, [], []⟩ : Frame).bytes] := by decide
    rw [hadv]
    refine (headersWhole_cons _ _ _).2 ⟨(Chunks.le_length_head_iff (by decide)).1 (by decide), ?_⟩
    intro before frame after he
    simp at he
  have hs : (listingThenBad 200).socket.chunks.flatten = listThenBad.flatMap Frame.bytes := by
    decide
  have hf : listThenBad.length < 3 := by decide
  have h := (conversation_decodes emptyServer (fun _ _ => ()) () hs (by decide) ha
    (reading_stores []) (.inr ⟨_, rfl⟩) hw rfl hf (by decide) (by decide)).1
  rw [show listThenBad.length = 2 from rfl] at h
  rw [h]
  decide

end TcpSession
end OnnxruntimeServer
