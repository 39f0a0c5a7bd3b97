import OnnxruntimeServer.TcpSession

namespace OnnxruntimeServer
set_option autoImplicit true

/-- A request frame: a header, and the two parts of the body that it announces. -/
structure Frame where
  header : ProtocolHeader
  json : Bytes
  post : Bytes
  deriving DecidableEq

def Frame.bytes (frame : Frame) : Bytes := frame.header.wire ++ frame.json ++ frame.post

variable {session : TcpSession} {frame : Frame} {header : ProtocolHeader}

namespace TcpSession

/-- A frame is valid for a session when its header tells its lengths and they keep the limits. -/
structure Accepts (session : TcpSession) (frame : Frame) : Prop where
  json_length : frame.header.json_length.toInt = frame.json.length
  post_length : frame.header.post_length.toInt = frame.post.length
  length : frame.header.length.toInt = frame.json.length + frame.post.length
  json_limit : frame.header.json_length ≤ session.request_payload_limit
  post_limit : frame.header.post_length ≤ session.postLimit frame.header

/-- Every upload file can be made, and takes what is written to it. -/
def Stores (session : TcpSession) : Prop :=
  ∀ k, (session.disk.fate k).opens = true ∧ (session.disk.fate k).room = none ∧
    (session.model_upload_dir ≠ [] ∨
      ∃ dir, (session.disk.fate k).temp_directory_path = .ok dir)

/-- The frame that `run` goes on with after `do_read` has returned `header`. -/
def received (header : ProtocolHeader) (session : TcpSession) : Frame where
  header := header
  json := session.buffer.take header.json_length.toInt.toNat
  post :=
    if session.uploaded_model_path ≠ [] then
      ((session.disk.files.find? fun f => f.1 = session.uploaded_model_path).map Prod.snd).getD []
    else (session.requestPost header).getD []

/-- What `n` successive calls of `do_read` yield, as far as the first that yields nothing. -/
def doReads : Nat → TcpSession → List Frame
  | 0, _ => []
  | n + 1, session =>
    match session.doRead with
    | (.ok (some header), session) => session.received header :: session.doReads n
    | _ => []

/-- Two sessions agree in all that decides which frames are valid and where uploads go. -/
structure SameSetup (session session' : TcpSession) : Prop where
  request_payload_limit : session'.request_payload_limit = session.request_payload_limit
  model_upload_limit : session'.model_upload_limit = session.model_upload_limit
  model_upload_dir : session'.model_upload_dir = session.model_upload_dir
  fate : session'.disk.fate = session.disk.fate

theorem SameSetup.accepts {session' : TcpSession} (h : SameSetup session session')
    (ha : session.Accepts frame) : session'.Accepts frame := by
  have hp : session'.postLimit frame.header = session.postLimit frame.header := by
    rw [postLimit, postLimit, h.request_payload_limit, h.model_upload_limit]
  exact ⟨ha.json_length, ha.post_length, ha.length, h.request_payload_limit ▸ ha.json_limit,
    hp ▸ ha.post_limit⟩

theorem SameSetup.stores {session' : TcpSession} (h : SameSetup session session')
    (hd : session.Stores) : session'.Stores := by
  rw [Stores, h.fate, h.model_upload_dir]
  exact hd

def withChunks (chunks : List Bytes) (session : TcpSession) : TcpSession :=
  { session with socket := { session.socket with chunks } }

theorem length_wire_append_ne (header : ProtocolHeader) (rest : Bytes) :
    header.wire ++ rest ≠ [] := by
  apply List.ne_nil_of_length_pos
  rw [List.length_append, header.length_wire, ProtocolHeader.size]
  omega

theorem readHeader_some_iff (hc : ∀ c ∈ session.socket.chunks, c ≠ [])
    (hs : session.socket.chunks.flatten = header.wire ++ rest) :
    (session.readHeader.1.isSome ↔
      ∀ k, 0 < k → k < ProtocolHeader.size → ¬ Chunks.Cut session.socket.chunks k) ∧
    (session.readHeader.1.isSome → session.readHeader =
      (some header, session.withChunks (Chunks.advance ProtocolHeader.size session.socket.chunks))) := by
  have hne : session.socket.chunks.flatten ≠ [] := hs ▸ length_wire_append_ne header rest
  obtain ⟨piece, _, hle, hpiece, hread⟩ :=
    session.socket.readSome_spec hc (n := ProtocolHeader.size) (by decide) hne
  have hfull : piece.length = ProtocolHeader.size ↔
      ∀ k, 0 < k → k < ProtocolHeader.size → ¬ Chunks.Cut session.socket.chunks k := by
    have hp : piece = (Chunks.readSome ProtocolHeader.size session.socket.chunks).1 :=
      (congrArg Prod.fst hread).symm
    cases hch : session.socket.chunks with
    | nil => exact absurd (by rw [hch, List.flatten_nil]) hne
    | cons c cs =>
      rw [hp, hch]
      exact Chunks.readSome_full_iff (hc c (by rw [hch]; exact List.mem_cons_self))
  have hval : session.readHeader =
      if piece.length < ProtocolHeader.size then
        (none, session.withChunks (Chunks.advance piece.length session.socket.chunks))
      else (some (ProtocolHeader.ofMemory piece).toHost,
        session.withChunks (Chunks.advance piece.length session.socket.chunks)) := by
    rw [readHeader, hread]
    rfl
  rw [← hfull, hval]
  by_cases hlt : piece.length < ProtocolHeader.size
  · rw [if_pos hlt]
    simp [hlt.ne]
  · have hlen : piece.length = ProtocolHeader.size := by omega
    have hwire : piece = header.wire := by
      rw [hpiece, hlen, hs, ← header.length_wire, List.take_left]
    rw [if_neg hlt, hlen, hwire, ProtocolHeader.toHost_ofMemory_wire]
    simp

theorem acceptsHeader_of_accepts (h : session.Accepts frame) :
    session.acceptsHeader frame.header = true := by
  have hj := h.json_length
  have hp := h.post_length
  have hadd : frame.header.length = frame.header.json_length + frame.header.post_length := by
    apply Int64.toInt_inj.1
    have hlt := frame.header.length.toInt_lt
    rw [Int64.toInt_add, hj, hp, h.length, Int.bmod_eq_of_le (by omega) (by have := h.length; omega)]
  have hj0 : ¬ frame.header.json_length < 0 := by
    rw [Int64.lt_iff_toInt_lt, hj, Int64.toInt_zero]
    omega
  have hp0 : ¬ frame.header.post_length < 0 := by
    rw [Int64.lt_iff_toInt_lt, hp, Int64.toInt_zero]
    omega
  simp only [acceptsHeader, hj0, hp0, Int64.not_lt.2 h.json_limit, Int64.not_lt.2 h.post_limit,
    ← hadd, decide_false, bne_self_eq_false, Bool.or_self, Bool.not_false]

theorem cleanupUpload_spec (session : TcpSession) :
    ∃ files, session.cleanupUpload =
      { session with uploaded_model_path := [], disk := { session.disk with files } } := by
  by_cases h : session.uploaded_model_path = []
  · exact ⟨session.disk.files, by rw [cleanupUpload, if_pos h, ← h]⟩
  · exact ⟨_, by rw [cleanupUpload, if_neg h]; rfl⟩

theorem readBuffer_of_le {length : Int64} (hc : ∀ c ∈ session.socket.chunks, c ≠ [])
    (hn : length.toInt = (n : Nat)) (hl : n ≤ session.socket.chunks.flatten.length) :
    session.readBuffer length =
      (true, { session.withChunks (Chunks.advance n session.socket.chunks) with
        buffer := session.buffer ++ session.socket.chunks.flatten.take n }) := by
  obtain ⟨hok, hbytes, hsocket⟩ := readExact_of_le hc hl
  rw [readBuffer, hn, Int.toNat_natCast, hok, hbytes, hsocket]
  rfl

theorem joinPath_ne_nil (dir : Bytes) (dist : Nat → Fin 16) :
    joinPath dir (uniqueUploadFilename dist) ≠ [] := by
  have hn : uniqueUploadFilename dist ≠ [] := by simp [uniqueUploadFilename, ascii]
  rw [joinPath]
  split_ifs <;> simp [hn]

theorem find_store (path content : Bytes) (disk : Disk) :
    ((disk.store path content).files.find? fun f => f.1 = path) = some (path, content) := by
  rw [Disk.store, List.find?_append, List.find?_eq_none.2]
  · simp
  · intro f hf
    simpa [Disk.remove] using (List.mem_filter.1 hf).2

theorem readUpload_of_le (hd : session.Stores) (hc : ∀ c ∈ session.socket.chunks, c ≠ [])
    (hn : header.post_length.toInt = (n : Nat)) (hl : n ≤ session.socket.chunks.flatten.length) :
    ∃ path files, path ≠ [] ∧
      (files.find? fun f => f.1 = path) = some (path, session.socket.chunks.flatten.take n) ∧
      session.readUpload header =
        (.ok (some header), { session.withChunks (Chunks.advance n session.socket.chunks) with
          uploaded_model_path := path
          disk := { session.disk with files, made := session.disk.made + 1 } }) := by
  obtain ⟨hok, hbytes, hsocket⟩ := readExact_of_le hc hl
  obtain ⟨hopens, hroom, hdir⟩ := hd session.disk.made
  have hdir' : ∃ dir, (if session.model_upload_dir = []
      then (session.disk.fate session.disk.made).temp_directory_path
      else .ok session.model_upload_dir) = .ok dir := by
    by_cases h : session.model_upload_dir = []
    · obtain ⟨dir, hdir⟩ := hdir.resolve_left (not_not.2 h)
      exact ⟨dir, by rw [if_pos h, hdir]⟩
    · exact ⟨_, if_neg h⟩
  obtain ⟨dir, hdir⟩ := hdir'
  refine ⟨_, _, joinPath_ne_nil dir (session.disk.fate session.disk.made).dist,
    find_store _ _ session.disk, ?_⟩
  rw [readUpload, hdir]
  simp only [hopens, hroom, hn, Int.toNat_natCast, hok, hbytes, hsocket, Bool.not_true,
    Option.any_none, Bool.or_self, Bool.false_eq_true, if_false, Option.getD_none,
    List.take_length]
  rfl

theorem received_of_buffer (hj : frame.header.json_length.toInt = frame.json.length)
    (hp : frame.header.post_length.toInt = frame.post.length)
    (hb : session.buffer = frame.json ++ frame.post) (hu : session.uploaded_model_path = []) :
    session.received frame.header = frame := by
  have hjson : session.buffer.take frame.header.json_length.toInt.toNat = frame.json := by
    rw [hb, hj, Int.toNat_natCast, List.take_left]
  have hpost : (session.requestPost frame.header).getD [] = frame.post := by
    rw [requestPost, if_neg (not_not.2 hu), hb, hj, hp, Int.toNat_natCast, Int.toNat_natCast,
      List.drop_left, List.take_length]
    split_ifs with hpos
    · rfl
    · rw [Int64.lt_iff_toInt_lt, Int64.toInt_zero, hp] at hpos
      exact (List.length_eq_zero_iff.1 (by omega)).symm
  rw [received, hjson, if_neg (not_not.2 hu), hpost]

theorem readPost_frame (hd : session.Stores) (hc : ∀ c ∈ session.socket.chunks, c ≠ [])
    (hj : frame.header.json_length.toInt = frame.json.length)
    (hp : frame.header.post_length.toInt = frame.post.length)
    (hb : session.buffer = frame.json) (hu : session.uploaded_model_path = [])
    (hs : session.socket.chunks.flatten = frame.post ++ rest) :
    ∃ session', session.readPost frame.header = (.ok (some frame.header), session') ∧
      session'.received frame.header = frame ∧
      session'.socket.chunks = Chunks.advance frame.post.length session.socket.chunks ∧
      SameSetup session session' := by
  have hl : frame.post.length ≤ session.socket.chunks.flatten.length := by
    rw [hs, List.length_append]
    omega
  have htake : session.socket.chunks.flatten.take frame.post.length = frame.post := by
    rw [hs, List.take_left]
  by_cases hpos : 0 < frame.header.post_length
  · by_cases htype : frame.header.type = Task.CREATE_SESSION
    · obtain ⟨path, files, hpath, hfind, hread⟩ := readUpload_of_le hd hc hp hl
      rw [readPost, if_pos ⟨htype, hpos⟩, hread]
      refine ⟨_, rfl, ?_, rfl, ⟨rfl, rfl, rfl, rfl⟩⟩
      rw [htake] at hfind
      simp only [received, withChunks, if_pos hpath, hfind, hb, hj, Int.toNat_natCast,
        List.take_length, Option.map_some, Option.getD_some]
    · have hread := readBuffer_of_le hc hp hl
      rw [readPost, if_neg (fun h => htype h.1), if_pos hpos, hread]
      refine ⟨_, rfl, ?_, rfl, ⟨rfl, rfl, rfl, rfl⟩⟩
      exact received_of_buffer hj hp (by rw [htake, hb]) hu
  · have hpost : frame.post = [] := by
      rw [Int64.lt_iff_toInt_lt, Int64.toInt_zero, hp] at hpos
      exact List.length_eq_zero_iff.1 (by omega)
    refine ⟨session, ?_, ?_, ?_, ⟨rfl, rfl, rfl, rfl⟩⟩
    · rw [readPost, if_neg (fun h => hpos h.2), if_neg hpos]
    · exact received_of_buffer hj hp (by rw [hb, hpost, List.append_nil]) hu
    · rw [hpost, List.length_nil, Chunks.advance_zero hc]

theorem readBody_frame (hd : session.Stores) (hc : ∀ c ∈ session.socket.chunks, c ≠ [])
    (ha : session.Accepts frame) (hb : session.buffer = []) (hu : session.uploaded_model_path = [])
    (hs : session.socket.chunks.flatten = frame.json ++ (frame.post ++ rest)) :
    ∃ session', session.readBody frame.header = (.ok (some frame.header), session') ∧
      session'.received frame.header = frame ∧
      session'.socket.chunks =
        Chunks.advance (frame.json.length + frame.post.length) session.socket.chunks ∧
      SameSetup session session' := by
  have hl : frame.json.length ≤ session.socket.chunks.flatten.length := by
    rw [hs, List.length_append]
    omega
  have hread := readBuffer_of_le hc ha.json_length hl
  rw [readBody, acceptsHeader_of_accepts ha, hread]
  rw [hb, hs, List.take_left, List.nil_append]
  have hs' : (Chunks.advance frame.json.length session.socket.chunks).flatten =
      frame.post ++ rest := by
    rw [Chunks.flatten_advance, hs, List.drop_left]
  have hd' : ({ session.withChunks (Chunks.advance frame.json.length session.socket.chunks) with
      buffer := frame.json } : TcpSession).Stores := hd
  obtain ⟨session', hpost, hrec, hchunks, hsame⟩ :=
    readPost_frame hd' (Chunks.nonempty_advance hc _) ha.json_length ha.post_length rfl hu hs'
  refine ⟨session', hpost, hrec, ?_, ⟨hsame.1, hsame.2, hsame.3, hsame.4⟩⟩
  rw [hchunks]
  exact Chunks.advance_add _ _ _

/-- `do_read` gets the next frame unless a chunk ends inside the header of that frame. -/
theorem doRead_frame (ha : session.Accepts frame) (hd : session.Stores)
    (hc : ∀ c ∈ session.socket.chunks, c ≠ [])
    (hs : session.socket.chunks.flatten = frame.bytes ++ rest) :
    (∃ k, 0 < k ∧ k < ProtocolHeader.size ∧ Chunks.Cut session.socket.chunks k) ∧
        session.doRead.1 = .ok none ∨
      (∀ k, 0 < k → k < ProtocolHeader.size → ¬ Chunks.Cut session.socket.chunks k) ∧
        ∃ session', session.doRead = (.ok (some frame.header), session') ∧
          session'.received frame.header = frame ∧
          session'.socket.chunks = Chunks.advance frame.bytes.length session.socket.chunks ∧
          SameSetup session session' := by
  obtain ⟨files, hclean⟩ := cleanupUpload_spec { session with buffer := [] }
  have hs₀ : session.socket.chunks.flatten =
      frame.header.wire ++ (frame.json ++ (frame.post ++ rest)) := by
    rw [hs, Frame.bytes]
    simp only [List.append_assoc]
  have hc₀ : ∀ c ∈ ({ session with
      buffer := [], uploaded_model_path := [],
      disk := { session.disk with files } } : TcpSession).socket.chunks, c ≠ [] := hc
  obtain ⟨hcut, hread⟩ := readHeader_some_iff hc₀ hs₀
  rw [doRead, hclean]
  by_cases h : ∀ k, 0 < k → k < ProtocolHeader.size → ¬ Chunks.Cut session.socket.chunks k
  · refine .inr ⟨h, ?_⟩
    rw [hread (hcut.2 h)]
    have hs₁ : (Chunks.advance ProtocolHeader.size session.socket.chunks).flatten =
        frame.json ++ (frame.post ++ rest) := by
      rw [Chunks.flatten_advance, hs₀, ← frame.header.length_wire, List.drop_left]
    have hd₁ : (withChunks (Chunks.advance ProtocolHeader.size session.socket.chunks) { session with
        buffer := [], uploaded_model_path := [],
        disk := { session.disk with files } }).Stores := hd
    obtain ⟨session', hbody, hrec, hchunks, hsame⟩ := readBody_frame
      hd₁ (Chunks.nonempty_advance hc _) ⟨ha.1, ha.2, ha.3, ha.4, ha.5⟩ rfl rfl hs₁
    refine ⟨session', hbody, hrec, ?_, ⟨hsame.1, hsame.2, hsame.3, hsame.4⟩⟩
    rw [hchunks, Frame.bytes]
    simp only [List.length_append, frame.header.length_wire, Nat.add_assoc]
    exact Chunks.advance_add _ _ _
  · refine .inl ⟨by simpa using h, ?_⟩
    have hnone := mt hcut.1 h
    generalize readHeader _ = read at hnone ⊢
    obtain ⟨_ | header, session'⟩ := read
    · rfl
    · simp at hnone

theorem doRead_eof (h : session.socket.chunks = []) : session.doRead.1 = .ok none := by
  obtain ⟨files, hclean⟩ := cleanupUpload_spec { session with buffer := [] }
  rw [doRead, hclean, readHeader]
  simp only [Socket.readSome, h, Chunks.readSome]
  rfl

theorem doReads_succ {session' : TcpSession}
    (h : session.doRead = (.ok (some header), session')) (n : Nat) :
    session.doReads (n + 1) = session'.received header :: session'.doReads n := by
  rw [doReads, h]

theorem doReads_of_none (h : session.doRead.1 = .ok none) (n : Nat) : session.doReads n = [] := by
  cases n with
  | zero => rfl
  | succ n =>
    rw [doReads]
    generalize session.doRead = read at h ⊢
    obtain ⟨result, session'⟩ := read
    obtain rfl : result = .ok none := h
    rfl

/-- No chunk ends inside a header, for the frames that follow one another in the stream. -/
def HeadersWhole (chunks : List Bytes) (frames : List Frame) : Prop :=
  ∀ before frame after, frames = before ++ frame :: after → ∀ k, 0 < k → k < ProtocolHeader.size →
    ¬ Chunks.Cut chunks ((before.flatMap Frame.bytes).length + k)

theorem headersWhole_cons (chunks : List Bytes) (frame : Frame) (frames : List Frame) :
    HeadersWhole chunks (frame :: frames) ↔
      (∀ k, 0 < k → k < ProtocolHeader.size → ¬ Chunks.Cut chunks k) ∧
        HeadersWhole (Chunks.advance frame.bytes.length chunks) frames := by
  constructor
  · intro h
    refine ⟨fun k hk hlt hcut => h [] frame frames rfl k hk hlt (by simpa using hcut), ?_⟩
    intro before f after he k hk hlt hcut
    apply h (frame :: before) f after (by rw [he, List.cons_append]) k hk hlt
    rw [List.flatMap_cons, List.length_append, Nat.add_assoc]
    exact (Chunks.cut_advance (by omega)).1 hcut
  · rintro ⟨hfirst, hrest⟩ before f after he k hk hlt hcut
    cases before with
    | nil =>
      apply hfirst k hk hlt
      simpa using hcut
    | cons b before =>
      obtain ⟨rfl, he'⟩ := List.cons.inj he
      refine hrest before f after he' k hk hlt ((Chunks.cut_advance (by omega)).2 ?_)
      rwa [List.flatMap_cons, List.length_append, Nat.add_assoc] at hcut

/-- The frames of a stream are read one after the other exactly when no chunk ends inside a header. -/
theorem doReads_iff (hs : session.socket.chunks.flatten = frames.flatMap Frame.bytes)
    (hc : ∀ c ∈ session.socket.chunks, c ≠ []) (ha : ∀ frame ∈ frames, session.Accepts frame)
    (hd : session.Stores) :
    (∀ n, frames.length ≤ n → session.doReads n = frames) ↔
      HeadersWhole session.socket.chunks frames := by
  induction frames generalizing session with
  | nil =>
    have hnil : session.socket.chunks = [] := by
      cases h : session.socket.chunks with
      | nil => rfl
      | cons c cs =>
        rw [h, List.flatten_cons, List.flatMap_nil] at hs
        exact absurd (List.append_eq_nil_iff.1 hs).1 (hc c (by rw [h]; exact List.mem_cons_self))
    refine ⟨fun _ before frame after he => by simp at he, fun _ n _ => ?_⟩
    exact doReads_of_none (doRead_eof hnil) n
  | cons frame frames ih =>
    rw [headersWhole_cons]
    rcases doRead_frame (ha frame List.mem_cons_self) hd hc hs with
      ⟨hcut, hnone⟩ | ⟨hwhole, session', hread, hrec, hchunks, hsame⟩
    · refine ⟨fun h => ?_, fun h => ?_⟩
      · have := h _ le_rfl
        rw [doReads_of_none hnone] at this
        cases this
      · obtain ⟨k, hk, hlt, hcut⟩ := hcut
        exact absurd hcut (h.1 k hk hlt)
    · have hih := ih
        (by rw [hchunks, Chunks.flatten_advance, hs, List.flatMap_cons, List.drop_left])
        (by rw [hchunks]; exact Chunks.nonempty_advance hc _)
        (fun f hf => hsame.accepts (ha f (List.mem_cons_of_mem _ hf))) (hsame.stores hd)
      rw [← hchunks, ← hih]
      constructor
      · intro h
        refine ⟨hwhole, fun n hn => ?_⟩
        have := h (n + 1) (by simpa using hn)
        rw [doReads_succ hread, hrec] at this
        exact (List.cons.inj this).2
      · rintro ⟨_, h⟩ n hn
        obtain ⟨n, rfl⟩ : ∃ m, n = m + 1 := ⟨n - 1, by simp at hn; omega⟩
        rw [doReads_succ hread, hrec, h n (by simpa using hn)]

def reading (chunks : List Bytes) : TcpSession where
  socket := ⟨chunks, fun _ => none, [], .ok (ascii "127.0.0.1:50000")⟩
  request_payload_limit := 1024
  model_upload_limit := 1024
  model_upload_dir := ascii "/tmp"
  buffer := []
  uploaded_model_path := []
  remote_endpoint := []
  disk := ⟨[], 0, fun _ => ⟨fun _ => 0, .ok (ascii "/tmp"), true, none⟩⟩

def listFrame : Frame := ⟨⟨Task.LIST_SESSION, 0, 0, 0⟩, [], []⟩

theorem reading_stores (chunks : List Bytes) : (reading chunks).Stores :=
  fun _ => ⟨rfl, rfl, .inr ⟨_, rfl⟩⟩

def uploadFrame : Frame := ⟨⟨Task.CREATE_SESSION, 5, 2, 3⟩, ascii "\x7b\x7d", [1, 2, 3]⟩

theorem reading_accepts (chunks : List Bytes) : (reading chunks).Accepts listFrame := by
  have h : (0 : Int64) ≤ 1024 := by decide
  exact ⟨by decide, by decide, by decide, h, h⟩

theorem reading_accepts_upload (chunks : List Bytes) : (reading chunks).Accepts uploadFrame := by
  have hjson : (2 : Int64) ≤ 1024 := by decide
  have hpost : (3 : Int64) ≤ 1024 := by decide
  exact ⟨by decide, by decide, by decide, hjson, hpost⟩

def cutBody : List Bytes :=
  [listFrame.bytes ++ uploadFrame.bytes.take 27, (uploadFrame.bytes.drop 27).take 2,
    uploadFrame.bytes.drop 29]

theorem doReads_iff_cutBody : HeadersWhole cutBody [listFrame, uploadFrame] ∧
    (reading cutBody).doReads 2 = [listFrame, uploadFrame] := by
  have hwhole : HeadersWhole cutBody [listFrame, uploadFrame] := by
    refine (headersWhole_cons _ _ _).2 ⟨(Chunks.le_length_head_iff (by decide)).1 (by decide), ?_⟩
    have hadv : Chunks.advance listFrame.bytes.length cutBody = [uploadFrame.bytes.take 27,
        (uploadFrame.bytes.drop 27).take 2, uploadFrame.bytes.drop 29] := by decide
    rw [hadv]
    refine (headersWhole_cons _ _ _).2 ⟨(Chunks.le_length_head_iff (by decide)).1 (by decide), ?_⟩
    intro before frame after he
    simp at he
  have hs : (reading cutBody).socket.chunks.flatten =
      [listFrame, uploadFrame].flatMap Frame.bytes := by decide
  have hc : ∀ c ∈ (reading cutBody).socket.chunks, c ≠ [] := by decide
  have ha : ∀ frame ∈ [listFrame, uploadFrame], (reading cutBody).Accepts frame := by
    intro frame hf
    rcases List.mem_pair.1 hf with rfl | rfl
    · exact reading_accepts _
    · exact reading_accepts_upload _
  exact ⟨hwhole, (doReads_iff hs hc ha (reading_stores _)).2 hwhole 2 le_rfl⟩

/-- A header that arrives in two segments ends the session without its request. -/
theorem doReads_split_header :
    ∃ chunks, chunks.flatten = [listFrame].flatMap Frame.bytes ∧ (∀ c ∈ chunks, c ≠ []) ∧
      (reading chunks).Accepts listFrame ∧ (reading chunks).Stores ∧
      (reading chunks).doReads 1 ≠ [listFrame] :=
  ⟨[listFrame.bytes.take 10, listFrame.bytes.drop 10], by decide, by decide,
    reading_accepts _, reading_stores _, by decide⟩

end TcpSession
end OnnxruntimeServer
