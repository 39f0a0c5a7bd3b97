import OnnxruntimeServer.TcpConversation

namespace OnnxruntimeServer.TcpSession
set_option autoImplicit true

variable {session session' : TcpSession}

/-- From one state to another so many bytes of the stream are used up at least, and so many writes
are made at most. -/
structure Spends (session session' : TcpSession) (bytes writes : Nat) : Prop where
  stream : session'.socket.chunks.flatten.length + bytes ≤ session.socket.chunks.flatten.length
  writes : session'.socket.writes.length ≤ session.socket.writes.length + writes

theorem Spends.of_socket (h : session'.socket = session.socket) : Spends session session' 0 0 := by
  constructor <;> rw [h] <;> exact le_rfl

theorem Spends.trans {session'' : TcpSession} (h : Spends session session' n m)
    (h' : Spends session' session'' n' m') : Spends session session'' (n + n') (m + m') := by
  obtain ⟨hstream, hwrites⟩ := h
  obtain ⟨hstream', hwrites'⟩ := h'
  constructor <;> omega

theorem Spends.mono (h : Spends session session' n m) (hn : n' ≤ n) (hm : m ≤ m') :
    Spends session session' n' m' := by
  obtain ⟨hstream, hwrites⟩ := h
  constructor <;> omega

/-- A read makes a write only where it fails. -/
structure Reads (session : TcpSession) (r : Except Exception (Option ProtocolHeader) × TcpSession)
    (n : Nat) : Prop where
  always : Spends session r.2 0 1
  found : ∀ header, r.1 = .ok (some header) → Spends session r.2 n 0

theorem Reads.of_failed {r : Except Exception (Option ProtocolHeader) × TcpSession}
    (h : Spends session r.2 0 1) (hr : ∀ header, r.1 ≠ .ok (some header)) (n : Nat) :
    Reads session r n :=
  ⟨h, fun header he => absurd he (hr header)⟩

theorem Reads.of_spends {r : Except Exception (Option ProtocolHeader) × TcpSession}
    (h : Spends session r.2 n 0) : Reads session r n :=
  ⟨h.mono (Nat.zero_le _) (Nat.zero_le _), fun _ _ => h⟩

theorem Reads.after {r : Except Exception (Option ProtocolHeader) × TcpSession}
    (h : Spends session session' n 0) (hr : Reads session' r n') : Reads session r (n + n') where
  always := (h.trans hr.always).mono (Nat.zero_le _) (Nat.zero_add _).le
  found header he := h.trans (hr.found header he)

theorem spends_doWrite (header : ProtocolHeader) (buf : Bytes) (session : TcpSession) :
    Spends session (session.doWrite header buf).2 0 1 := by
  rw [doWrite, Socket.writeSome]
  cases session.socket.fate session.socket.writes.length <;>
    exact ⟨le_rfl, by simp⟩

theorem spends_sendError (h : session.sendError type what = .ok (done, session')) :
    Spends session session' 0 1 := by
  rw [sendError] at h
  cases hw : whatToJson type what with
  | error e =>
    rw [hw] at h
    cases h
  | ok res_json =>
    rw [hw] at h
    have hspends := spends_doWrite (resHeader (-1) res_json.length) res_json session
    rw [Except.ok.inj h] at hspends
    exact hspends

theorem reads_refuse (type what : Bytes) (session : TcpSession) (n : Nat) :
    Reads session (session.refuse type what) n := by
  rw [refuse]
  cases he : session.getRemoteEndpoint with
  | error e =>
    exact ⟨(Spends.of_socket rfl).mono le_rfl (Nat.zero_le _), by simp⟩
  | ok session₁ =>
    have hfirst := Spends.of_socket (socket_getRemoteEndpoint he)
    dsimp only
    cases hs : session₁.sendError type what with
    | error e => exact .of_failed (hfirst.mono le_rfl (Nat.zero_le _)) (by simp) _
    | ok r => exact .of_failed (hfirst.trans (spends_sendError hs)) (by simp) _

theorem spends_readExact (length : Nat) (session : TcpSession)
    (h : session'.socket = (readExact length session.socket).socket) :
    Spends session session' 0 0 := by
  constructor
  · have happend := congrArg List.length (readExact_append length session.socket)
    rw [List.length_append] at happend
    rw [h]
    omega
  · rw [h, writes_readExact]
    exact le_rfl

theorem reads_readUpload (header : ProtocolHeader) (session : TcpSession) :
    Reads session (session.readUpload header) 0 := by
  rw [readUpload]
  dsimp only
  split
  · exact .of_spends (Spends.of_socket rfl)
  · split
    · refine Reads.after (Spends.of_socket ?_) (reads_refuse _ _ _ 0)
      rfl
    · split
      · exact .of_spends (spends_readExact header.post_length.toInt.toNat session rfl)
      · exact .of_spends (spends_readExact header.post_length.toInt.toNat session rfl)

theorem reads_readPost (header : ProtocolHeader) (session : TcpSession) :
    Reads session (session.readPost header) 0 := by
  have hb : Spends session (session.readBuffer header.post_length).2 0 0 :=
    spends_readExact header.post_length.toInt.toNat session rfl
  rw [readPost]
  split
  · exact reads_readUpload header session
  · split
    · generalize session.readBuffer header.post_length = read at hb ⊢
      obtain ⟨_ | _, session'⟩ := read
      · exact .of_spends hb
      · exact .of_spends hb
    · exact .of_spends (Spends.of_socket rfl)

theorem reads_readBody (header : ProtocolHeader) (session : TcpSession) :
    Reads session (session.readBody header) 0 := by
  have hb : Spends session (session.readBuffer header.json_length).2 0 0 :=
    spends_readExact header.json_length.toInt.toNat session rfl
  rw [readBody]
  split
  · exact reads_refuse _ _ _ _
  · generalize session.readBuffer header.json_length = read at hb ⊢
    obtain ⟨_ | _, session'⟩ := read
    · exact .of_spends hb
    · exact Reads.after hb (reads_readPost header session')

theorem spends_readHeader (session : TcpSession) :
    Spends session session.readHeader.2 0 0 ∧ ∀ header, session.readHeader.1 = some header →
      Spends session session.readHeader.2 ProtocolHeader.size 0 := by
  have hread : session.socket.readSome ProtocolHeader.size =
    ((session.socket.readSome ProtocolHeader.size).1,
      (session.socket.readSome ProtocolHeader.size).2) := rfl
  have happend := congrArg List.length (Socket.readSome_append hread)
  rw [List.length_append] at happend
  rw [readHeader]
  dsimp only
  split
  · refine ⟨⟨?_, le_rfl⟩, by simp⟩
    change ((session.socket.readSome ProtocolHeader.size).2.chunks.flatten).length + 0 ≤ _
    omega
  · rename_i hlen
    refine ⟨⟨?_, le_rfl⟩, fun header _ => ⟨?_, le_rfl⟩⟩
    · change ((session.socket.readSome ProtocolHeader.size).2.chunks.flatten).length + 0 ≤ _
      omega
    · change ((session.socket.readSome ProtocolHeader.size).2.chunks.flatten).length +
        ProtocolHeader.size ≤ _
      omega

theorem reads_doRead (session : TcpSession) : Reads session session.doRead ProtocolHeader.size := by
  have hclean : Spends session (cleanupUpload { session with buffer := [] }) 0 0 :=
    Spends.of_socket (writes_cleanupUpload _)
  have hh := spends_readHeader (cleanupUpload { session with buffer := [] })
  rw [doRead]
  generalize readHeader _ = read at hh ⊢
  obtain ⟨_ | header, session'⟩ := read
  · exact .of_failed ((hclean.trans hh.1).mono le_rfl (Nat.zero_le _)) (by simp) _
  · have hsome := hclean.trans (hh.2 header rfl)
    rw [Nat.zero_add] at hsome
    exact Reads.after hsome (reads_readBody header session')

theorem spends_serve (services : Services M) (manager : M) (header : ProtocolHeader)
    (session : TcpSession) : Spends session (session.serve services manager header).2.2 0 1 := by
  have ha := Spends.of_socket (writes_answer services manager header session)
  rw [serve]
  generalize session.answer services manager header = answered at ha ⊢
  obtain ⟨e | res_json, manager', session'⟩ := answered
  · dsimp only at ha ⊢
    cases he : session'.getRemoteEndpoint with
    | error e => exact ha.mono le_rfl (Nat.zero_le _)
    | ok session₁ =>
      have h₁ := ha.trans (Spends.of_socket (socket_getRemoteEndpoint he))
      dsimp only
      cases hs : session₁.sendError e.kind.type e.what with
      | error e => exact h₁.mono le_rfl (Nat.zero_le _)
      | ok r => exact h₁.trans (spends_sendError hs)
  · have hw := ha.trans (spends_doWrite (resHeader header.type res_json.length) res_json session')
    dsimp only at hw ⊢
    generalize session'.doWrite _ res_json = written at hw ⊢
    obtain ⟨_ | _, session₁⟩ := written <;> exact hw

/-- A round makes one write at most, and when it goes on it has used up a header. -/
theorem spends_round (services : Services M) (manager : M) (session : TcpSession) :
    Spends session (session.round services manager).2.2 0 1 ∧
      ((session.round services manager).1 = .again →
        Spends session (session.round services manager).2.2 ProtocolHeader.size 1) := by
  have hr := reads_doRead session
  rw [round]
  generalize session.doRead = read at hr ⊢
  obtain ⟨e | _ | header, session'⟩ := read
  · exact ⟨hr.always, by simp⟩
  · exact ⟨hr.always, by simp⟩
  · have hs := (hr.found header rfl).trans (spends_serve services manager header session')
    exact ⟨hs.mono (Nat.zero_le _) le_rfl, fun _ => hs⟩

theorem run_left (services : Services M) (env : Nat → M → M) (k : Nat) (manager : M)
    (session : TcpSession) {fuel : Nat}
    (hf : session.socket.chunks.flatten.length < ProtocolHeader.size * fuel) :
    (run services env fuel k manager session).1 ≠ .again ∧
    (∀ more, run services env (fuel + more) k manager session =
      run services env fuel k manager session) ∧
    (run services env fuel k manager session).2.2.socket.writes.length ≤
      session.socket.writes.length +
        session.socket.chunks.flatten.length / ProtocolHeader.size + 1 := by
  have hsize : ProtocolHeader.size = 26 := rfl
  rw [hsize] at hf ⊢
  induction fuel generalizing k manager session with
  | zero => omega
  | succ fuel ih =>
    obtain ⟨hround, hagain⟩ := spends_round services (env k manager) session
    simp only [Nat.succ_add, run]
    rcases hr : session.round services (env k manager) with ⟨turn, manager', session'⟩
    rw [hr] at hround hagain
    have hwrites := hround.writes
    dsimp only at hwrites
    cases turn with
    | again =>
      have hstream := (hagain rfl).stream
      rw [hsize] at hstream
      dsimp only at hstream ⊢
      obtain ⟨hleft, hmore, hle⟩ := ih (k + 1) manager' session' (by omega)
      exact ⟨hleft, hmore, by omega⟩
    | stop => exact ⟨Turn.noConfusion, fun _ => rfl, by dsimp only; omega⟩
    | escaped e => exact ⟨Turn.noConfusion, fun _ => rfl, by dsimp only; omega⟩

/-- Whatever a peer sends, `run` leaves its loop by itself: each round that goes on uses up a header,
and each makes one write at most. -/
theorem run_terminates (services : Services M) (env : Nat → M → M) (k : Nat) (manager : M)
    (session : TcpSession) {fuel : Nat}
    (hf : session.socket.chunks.flatten.length < ProtocolHeader.size * fuel) :
    (run services env fuel k manager session).1 ≠ .again ∧
    (∀ more, run services env (fuel + more) k manager session =
      run services env fuel k manager session) ∧
    (run services env fuel k manager session).2.2.socket.writes.length ≤
      session.socket.writes.length +
        session.socket.chunks.flatten.length / ProtocolHeader.size + 1 ∧
    ∀ (manager : M) (session : TcpSession),
      Spends session (session.round services manager).2.2 0 1 ∧
        ((session.round services manager).1 = .again →
          Spends session (session.round services manager).2.2 ProtocolHeader.size 1) := by
  obtain ⟨hleft, hmore, hwrites⟩ := run_left services env k manager session hf
  exact ⟨hleft, hmore, hwrites, spends_round services⟩

/-- Two requests take three rounds. -/
theorem run_terminates_listThenBad :
    (run emptyServer (fun _ m => m) 3 0 () (listingThenBad 200)).1 ≠ .again ∧
      (∀ more, run emptyServer (fun _ m => m) (3 + more) 0 () (listingThenBad 200) =
        run emptyServer (fun _ m => m) 3 0 () (listingThenBad 200)) ∧
      (run emptyServer (fun _ m => m) 3 0 () (listingThenBad 200)).2.2.socket.writes.length ≤ 3 := by
  obtain ⟨hleft, hmore, hwrites, _⟩ :=
    run_terminates emptyServer (fun _ m => m) 0 () (listingThenBad 200)
      (show _ < ProtocolHeader.size * 3 by decide)
  exact ⟨hleft, hmore, hwrites⟩

end OnnxruntimeServer.TcpSession
