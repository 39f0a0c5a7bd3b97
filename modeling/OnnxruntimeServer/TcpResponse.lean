import OnnxruntimeServer.TcpFraming
import OnnxruntimeServer.Lib.Transition

namespace OnnxruntimeServer
set_option autoImplicit true
open Endian

variable {session : TcpSession}

theorem htons_bytes (x : UInt16) : bytes 2 (htons x).toNat = (bytes 2 x.toNat).reverse := by
  rw [htons_toNat, bytes_swap]

theorem HTONLL_bytes (x : UInt64) : bytes 8 (HTONLL x).toNat = (bytes 8 x.toNat).reverse := by
  rw [HTONLL_toNat, bytes_swap]

/-- A response frame: a header in the form of the protocol and the body whose size it announces. -/
structure Response where
  header : ProtocolHeader
  body : Bytes
  length : header.length = header.json_length
  json_length : body.length < 2 ^ 63 → header.json_length.toInt = body.length
  post_length : header.post_length = 0

def Response.bytes (response : Response) : Bytes := response.header.wire ++ response.body

namespace TcpSession

theorem resHeader_response (type : Int16) (body : Bytes) :
    ∃ response : Response, response.header.type = type ∧ response.body = body ∧
      (resHeader type body.length).memory ++ body = response.bytes := by
  refine ⟨⟨⟨type, body.length.toUInt64.toInt64, body.length.toUInt64.toInt64, 0⟩, body, rfl, ?_, rfl⟩,
    rfl, rfl, ?_⟩
  · intro h
    exact Int64.toInt_ofNat_of_lt h
  · rw [Response.bytes, resHeader, ProtocolHeader.memory, ProtocolHeader.wire]
    simp only [UInt16.toUInt16_toInt16, UInt64.toUInt64_toInt64, htons_bytes, HTONLL_bytes]
    rfl

/-- Each call of `do_write` is one write of a whole frame, whatever the socket makes of it. -/
theorem doWrite_writes (type : Int16) (body : Bytes) (session : TcpSession) :
    ∃ (response : Response) (sent : Nat),
      (session.doWrite (resHeader type body.length) body).2.socket.writes =
        session.socket.writes ++ [(response.bytes, sent)] := by
  obtain ⟨response, _, _, hbytes⟩ := resHeader_response type body
  rw [doWrite, Socket.writeSome, hbytes]
  cases session.socket.fate session.socket.writes.length with
  | none => exact ⟨response, 0, rfl⟩
  | some n => exact ⟨response, _, rfl⟩

/-- What `do_write` reports as done has been sent in full, unless the socket took only a part. -/
theorem doWrite_iff (header : ProtocolHeader) (buf : Bytes) (session : TcpSession) :
    ((session.doWrite header buf).1 = true →
      (session.doWrite header buf).2.socket.sent =
        session.socket.sent ++ (header.memory ++ buf)) ↔
    ∀ n, session.socket.fate session.socket.writes.length = some n →
      (header.memory ++ buf).length ≤ n + 1 := by
  rw [doWrite, Socket.writeSome]
  cases hf : session.socket.fate session.socket.writes.length with
  | none => simp
  | some n =>
    have hpos : 0 < (header.memory ++ buf).length := by
      rw [ProtocolHeader.memory]
      simp
    have hdone : (some (min (n + 1) (header.memory ++ buf).length)).any (0 < ·) = true := by
      simpa using hpos
    simp only [hdone, forall_true_left, Socket.sent, List.flatMap_append, List.flatMap_cons,
      List.flatMap_nil, List.append_nil, List.append_cancel_left_eq, Option.some.injEq,
      forall_eq', List.take_eq_self_iff, le_min_iff, le_refl, and_true]

/-- Whatever has been offered to the socket was a whole response frame. -/
def OffersResponses (session : TcpSession) : Prop :=
  ∀ w ∈ session.socket.writes, ∃ response : Response, w.1 = response.bytes

theorem OffersResponses.of_writes {session' : TcpSession} (h : session.OffersResponses)
    (hw : session'.socket.writes = session.socket.writes) : session'.OffersResponses := by
  rw [OffersResponses, hw]
  exact h

theorem writes_readExact (length : Nat) (socket : Socket) :
    (readExact length socket).socket.writes = socket.writes := by
  induction length, socket using readExact_induct with
  | done socket => rfl
  | failed length socket socket' hl hr =>
    rw [readExact_failed hl hr]
    exact congrArg (fun r : Bytes × Socket => r.2.writes) hr.symm
  | more length socket piece socket' hl hr hp ih =>
    rw [readExact_more hl hr hp, ih]
    exact congrArg (fun r : Bytes × Socket => r.2.writes) hr.symm

theorem writes_cleanupUpload (session : TcpSession) :
    session.cleanupUpload.socket = session.socket := by
  rw [cleanupUpload]
  split_ifs <;> rfl

theorem OffersResponses.doWrite (h : session.OffersResponses) (type : Int16) (body : Bytes) :
    (session.doWrite (resHeader type body.length) body).2.OffersResponses := by
  obtain ⟨response, sent, hw⟩ := doWrite_writes type body session
  rw [OffersResponses, hw]
  intro w hmem
  rcases List.mem_append.1 hmem with hmem | hmem
  · exact h w hmem
  · rw [List.mem_singleton.1 hmem]
    exact ⟨response, rfl⟩

theorem OffersResponses.sendError (h : session.OffersResponses) {done : Bool}
    {session' : TcpSession} (hs : session.sendError type what = .ok (done, session')) :
    session'.OffersResponses := by
  rw [TcpSession.sendError] at hs
  cases hw : whatToJson type what with
  | error e =>
    rw [hw] at hs
    cases hs
  | ok res_json =>
    rw [hw] at hs
    have := h.doWrite (-1) res_json
    rw [Except.ok.inj hs] at this
    exact this

theorem OffersResponses.refuse (h : session.OffersResponses) (type what : Bytes) :
    (session.refuse type what).2.OffersResponses := by
  rw [TcpSession.refuse]
  cases he : session.getRemoteEndpoint with
  | error e => exact h
  | ok session₁ =>
    have h₁ := h.of_writes (congrArg Socket.writes (socket_getRemoteEndpoint he))
    dsimp only
    cases hs : session₁.sendError type what with
    | error e => exact h₁
    | ok r => exact h₁.sendError hs

theorem OffersResponses.readBuffer (h : session.OffersResponses) (length : Int64) :
    (session.readBuffer length).2.OffersResponses :=
  h.of_writes (writes_readExact _ _)

theorem OffersResponses.readUpload (h : session.OffersResponses) (header : ProtocolHeader) :
    (session.readUpload header).2.OffersResponses := by
  rw [TcpSession.readUpload]
  dsimp only
  split
  · exact h
  · split
    · refine OffersResponses.refuse ?_ _ _
      exact h.of_writes rfl
    · split
      · exact h.of_writes (writes_readExact _ _)
      · exact h.of_writes (writes_readExact _ _)

theorem OffersResponses.readPost (h : session.OffersResponses) (header : ProtocolHeader) :
    (session.readPost header).2.OffersResponses := by
  have hb := h.readBuffer header.post_length
  rw [TcpSession.readPost]
  split
  · exact h.readUpload header
  · split
    · generalize session.readBuffer header.post_length = read at hb ⊢
      obtain ⟨_ | _, session'⟩ := read <;> exact hb
    · exact h

theorem OffersResponses.readBody (h : session.OffersResponses) (header : ProtocolHeader) :
    (session.readBody header).2.OffersResponses := by
  have hb := h.readBuffer header.json_length
  rw [TcpSession.readBody]
  split
  · exact h.refuse _ _
  · generalize session.readBuffer header.json_length = read at hb ⊢
    obtain ⟨_ | _, session'⟩ := read
    · exact hb
    · exact hb.readPost header

theorem OffersResponses.readHeader (h : session.OffersResponses) :
    session.readHeader.2.OffersResponses := by
  rw [TcpSession.readHeader]
  dsimp only
  split
  · exact h.of_writes rfl
  · exact h.of_writes rfl

theorem OffersResponses.doRead (h : session.OffersResponses) :
    session.doRead.2.OffersResponses := by
  have hclean : (cleanupUpload { session with buffer := [] }).OffersResponses :=
    h.of_writes (congrArg Socket.writes (writes_cleanupUpload _))
  have hh := hclean.readHeader
  rw [TcpSession.doRead]
  generalize TcpSession.readHeader _ = read at hh ⊢
  obtain ⟨_ | header, session'⟩ := read
  · exact hh
  · exact hh.readBody header

theorem writes_answer (services : Services M) (manager : M) (header : ProtocolHeader)
    (session : TcpSession) :
    (session.answer services manager header).2.2.socket = session.socket := by
  rw [answer]
  cases session.requestTask services.json header with
  | error e => rfl
  | ok task =>
    dsimp only
    obtain ⟨manager', _ | result⟩ := services.run manager task
    · rfl
    · dsimp only
      cases he : session.getRemoteEndpoint with
      | error e => rfl
      | ok session' => exact socket_getRemoteEndpoint he

theorem OffersResponses.serve (h : session.OffersResponses) (services : Services M) (manager : M)
    (header : ProtocolHeader) : (session.serve services manager header).2.2.OffersResponses := by
  have ha := h.of_writes
    (congrArg Socket.writes (writes_answer services manager header session))
  rw [TcpSession.serve]
  generalize session.answer services manager header = answered at ha ⊢
  obtain ⟨e | res_json, manager', session'⟩ := answered
  · dsimp only at ha ⊢
    cases he : session'.getRemoteEndpoint with
    | error e => exact ha
    | ok session₁ =>
      have h₁ := ha.of_writes (congrArg Socket.writes (socket_getRemoteEndpoint he))
      dsimp only
      cases hs : session₁.sendError e.kind.type e.what with
      | error e => exact h₁
      | ok r => exact h₁.sendError hs
  · have hw := ha.doWrite header.type res_json
    dsimp only at hw ⊢
    generalize session'.doWrite _ res_json = written at hw ⊢
    obtain ⟨_ | _, session₁⟩ := written <;> exact hw

theorem OffersResponses.round (h : session.OffersResponses) (services : Services M) (manager : M) :
    (session.round services manager).2.2.OffersResponses := by
  have hr := h.doRead
  rw [TcpSession.round]
  generalize session.doRead = read at hr ⊢
  obtain ⟨e | _ | header, session'⟩ := read
  · exact hr
  · exact hr
  · exact hr.serve services manager header

/-- A round that goes on, whatever other clients have made of the session manager. -/
def Again (services : Services M) (session session' : TcpSession) : Prop :=
  ∃ manager manager', session.round services manager = (.again, manager', session')

/-- The states in which `run` is about to call `do_read`. -/
def AtRead (services : Services M) : TcpSession → Prop :=
  Transition.Reachable (fun session => session.socket.writes = []) (Again services)

theorem AtRead.offersResponses {services : Services M} (h : AtRead services session) :
    session.OffersResponses := by
  refine h.invariant (fun s hs w hw => ?_) ?_
  · rw [hs] at hw
    cases hw
  · rintro s s' _ hs ⟨manager, manager', hround⟩
    have := hs.round services manager
    rwa [hround] at this

theorem sent_of_whole {writes : List (Bytes × Nat)}
    (hr : ∀ w ∈ writes, ∃ response : Response, w.1 = response.bytes)
    (hw : ∀ w ∈ writes, w.2 = 0 ∨ w.2 = w.1.length) :
    ∃ responses : List Response,
      (writes.flatMap fun w => w.1.take w.2) = responses.flatMap Response.bytes := by
  induction writes with
  | nil => exact ⟨[], rfl⟩
  | cons w writes ih =>
    obtain ⟨responses, hrest⟩ := ih (fun v hv => hr v (List.mem_cons_of_mem _ hv))
      fun v hv => hw v (List.mem_cons_of_mem _ hv)
    obtain ⟨response, hresponse⟩ := hr w List.mem_cons_self
    rw [List.flatMap_cons, hrest]
    rcases hw w List.mem_cons_self with h0 | hall
    · exact ⟨responses, by rw [h0, List.take_zero, List.nil_append]⟩
    · refine ⟨response :: responses, ?_⟩
      rw [hall, List.take_length, hresponse, List.flatMap_cons]

/-- A response that is reported as written has been sent in full exactly when the socket did not cut
the write short, and as long as no write was cut short, each `do_read` finds whole frames sent. -/
theorem responses_whole (services : Services M) :
    (∀ (header : ProtocolHeader) (buf : Bytes) (session : TcpSession),
      ((session.doWrite header buf).1 = true →
        (session.doWrite header buf).2.socket.sent =
          session.socket.sent ++ (header.memory ++ buf)) ↔
      ∀ n, session.socket.fate session.socket.writes.length = some n →
        (header.memory ++ buf).length ≤ n + 1) ∧
    ∀ session, AtRead services session →
      (∀ w ∈ session.socket.writes, w.2 = 0 ∨ w.2 = w.1.length) →
      ∃ responses : List Response, session.socket.sent = responses.flatMap Response.bytes :=
  ⟨doWrite_iff, fun _ h hw => sent_of_whole h.offersResponses hw⟩

def listing (limit : Nat) : TcpSession :=
  { reading [listFrame.bytes] with
    socket := { (reading [listFrame.bytes]).socket with fate := fun _ => some (limit - 1) } }

def emptyServer : Services Unit where
  json := ⟨fun _ => ⟨[], .ok .null⟩, fun _ => []⟩
  run manager _ := (manager, .ok (.array []))

def listed (limit : Nat) : TcpSession := ((listing limit).round emptyServer ()).2.2

theorem listed_atRead (h : ((listing limit).round emptyServer ()).1 = .again) :
    AtRead emptyServer (listed limit) :=
  .next (.start rfl) ⟨(), (), Prod.ext h rfl⟩

theorem responses_whole_listed :
    (listed 100).socket.writes.length = 1 ∧
      ∃ responses : List Response, (listed 100).socket.sent = responses.flatMap Response.bytes :=
  ⟨by decide, (responses_whole emptyServer).2 _ (listed_atRead (by decide)) (by decide)⟩

/-- A write of 10 bytes out of 28 counts as done, and the loop goes on with its next request. -/
theorem responses_cut_short :
    (∃ header buf session, (doWrite header buf session).1 = true ∧
      (session.doWrite header buf).2.socket.sent ≠ session.socket.sent ++ (header.memory ++ buf)) ∧
    ∃ session, AtRead emptyServer session ∧
      ∀ responses : List Response, session.socket.sent ≠ responses.flatMap Response.bytes := by
  refine ⟨⟨resHeader 21 2, ascii "[]", listing 10, by decide, by decide⟩,
    listed 10, listed_atRead (by decide), ?_⟩
  have hlen : (listed 10).socket.sent.length = 10 := by decide
  intro responses he
  cases responses with
  | nil =>
    rw [he] at hlen
    cases hlen
  | cons response responses =>
    rw [he, List.flatMap_cons, List.length_append, Response.bytes, List.length_append,
      response.header.length_wire, ProtocolHeader.size] at hlen
    omega

end TcpSession
end OnnxruntimeServer
