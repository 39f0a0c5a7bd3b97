import OnnxruntimeServer.TcpResponse

namespace OnnxruntimeServer
set_option autoImplicit true

/-- `HTONLL` of a signed operand, such as a field of the header: the conversions to 32 bits keep
the low half of it, and `>>` is arithmetic. -/
def HTONLLSigned (x : Int64) : UInt64 :=
  ((htonl x.toUInt64.toUInt32).toUInt64 <<< 32) + (htonl (x >>> 32).toUInt64.toUInt32).toUInt64

def NTOHLLSigned (x : Int64) : UInt64 :=
  ((htonl x.toUInt64.toUInt32).toUInt64 <<< 32) + (htonl (x >>> 32).toUInt64.toUInt32).toUInt64

/-- Of the arithmetic shift only the high half of the operand is left, not its sign. -/
theorem high_half (x : Int64) : (x >>> 32).toUInt64.toUInt32 = (x.toUInt64 >>> 32).toUInt32 := by
  have hshift : (32 : Int64).toBitVec.smod 64 = 32#64 := by decide
  have hshift' : (32 : UInt64).toBitVec % 64 = 32#64 := by decide
  apply UInt32.toBitVec_inj.1
  apply BitVec.eq_of_getLsbD_eq
  intro i hi
  simp only [UInt64.toBitVec_toUInt32, Int64.toBitVec_toUInt64, Int64.toBitVec_shiftRight,
    UInt64.toBitVec_shiftRight, hshift, hshift', BitVec.getLsbD_setWidth, hi, decide_true,
    Bool.true_and]
  rw [BitVec.sshiftRight', BitVec.getLsbD_sshiftRight, BitVec.ushiftRight_eq',
    BitVec.getLsbD_ushiftRight]
  have hin : (32#64).toNat + i < 64 := by
    have : (32#64).toNat = 32 := rfl
    omega
  simp only [hin, if_true, show ¬ 64 ≤ i by omega, decide_false, Bool.not_false, Bool.true_and]

theorem HTONLLSigned_eq (x : Int64) : HTONLLSigned x = HTONLL x.toUInt64 := by
  rw [HTONLLSigned, HTONLL, high_half]

theorem NTOHLLSigned_eq (x : Int64) : NTOHLLSigned x = NTOHLL x.toUInt64 := by
  rw [NTOHLLSigned, NTOHLL, high_half]

theorem NTOHLL_HTONLL (x : UInt64) : NTOHLL (HTONLL x) = x := by
  apply UInt64.toNat_inj.1
  rw [NTOHLL_toNat, HTONLL_toNat, Endian.swap_swap x.toNat_lt]

theorem HTONLL_NTOHLL (x : UInt64) : HTONLL (NTOHLL x) = x := NTOHLL_HTONLL x

namespace ProtocolHeader

def hton (header : ProtocolHeader) : ProtocolHeader where
  type := (htons header.type.toUInt16).toInt16
  length := (HTONLLSigned header.length).toInt64
  json_length := (HTONLLSigned header.json_length).toInt64
  post_length := (HTONLLSigned header.post_length).toInt64

/-- The fields converted with `ntohs` and `NTOHLL`, which `do_read` applies to the signed fields. -/
def ntoh (header : ProtocolHeader) : ProtocolHeader where
  type := (htons header.type.toUInt16).toInt16
  length := (NTOHLLSigned header.length).toInt64
  json_length := (NTOHLLSigned header.json_length).toInt64
  post_length := (NTOHLLSigned header.post_length).toInt64

theorem ntoh_eq (header : ProtocolHeader) : header.ntoh = header.toHost := by
  rw [ntoh, toHost, NTOHLLSigned_eq, NTOHLLSigned_eq, NTOHLLSigned_eq]

theorem memory_hton (header : ProtocolHeader) : header.hton.memory = header.wire := by
  rw [hton, memory, wire, HTONLLSigned_eq, HTONLLSigned_eq, HTONLLSigned_eq]
  simp only [UInt16.toUInt16_toInt16, UInt64.toUInt64_toInt64, htons_bytes, HTONLL_bytes]

theorem ntoh_ofMemory_hton (header : ProtocolHeader) :
    (ofMemory header.hton.memory).ntoh = header := by
  rw [memory_hton, ntoh_eq, toHost_ofMemory_wire]

end ProtocolHeader

/-- What a reader of the protocol finds in a frame: its type and its body, whose size is announced
twice, and nothing after it. -/
structure Announces (frame : Bytes) (type : Int16) (body : Bytes) : Prop where
  header : ∃ size : Int64, size.toInt = body.length ∧
    (ProtocolHeader.ofMemory (frame.take ProtocolHeader.size)).ntoh = ⟨type, size, size, 0⟩
  body : frame.drop ProtocolHeader.size = body

theorem announces_resHeader (type : Int16) (hl : body.length < 2 ^ 63) :
    Announces ((TcpSession.resHeader type body.length).memory ++ body) type body := by
  have hsize : (TcpSession.resHeader type body.length).memory =
      (ProtocolHeader.mk type body.length.toUInt64.toInt64
        body.length.toUInt64.toInt64 0).wire := by
    rw [TcpSession.resHeader, ProtocolHeader.memory, ProtocolHeader.wire]
    simp only [UInt16.toUInt16_toInt16, UInt64.toUInt64_toInt64, htons_bytes, HTONLL_bytes]
    rfl
  have hlen := ProtocolHeader.length_wire
    (ProtocolHeader.mk type body.length.toUInt64.toInt64 body.length.toUInt64.toInt64 0)
  constructor
  · refine ⟨body.length.toUInt64.toInt64, Int64.toInt_ofNat_of_lt hl, ?_⟩
    rw [hsize, List.take_left' hlen, ProtocolHeader.ntoh_eq, ProtocolHeader.toHost_ofMemory_wire]
  · rw [hsize, List.drop_left' hlen]

namespace TcpSession

theorem doWrite_frame (header : ProtocolHeader) (body : Bytes) (session : TcpSession) :
    ∃ sent, (session.doWrite header body).2.socket.writes =
      session.socket.writes ++ [(header.memory ++ body, sent)] := by
  rw [doWrite, Socket.writeSome]
  cases session.socket.fate session.socket.writes.length with
  | none => exact ⟨0, rfl⟩
  | some n => exact ⟨_, rfl⟩

theorem serve_frame {services : Services M} {session session' : TcpSession}
    (ha : session.answer services manager header = (.ok res_json, manager', session'))
    (hl : res_json.length < 2 ^ 63) :
    ∃ frame sent, (session.serve services manager header).2.2.socket.writes =
      session'.socket.writes ++ [(frame, sent)] ∧ Announces frame header.type res_json := by
  obtain ⟨sent, hw⟩ := doWrite_frame (resHeader header.type res_json.length) res_json session'
  refine ⟨_, sent, ?_, announces_resHeader header.type hl⟩
  rw [serve, ha, ← hw]
  dsimp only
  rcases session'.doWrite (resHeader header.type res_json.length) res_json with ⟨_ | _, _⟩
  · rfl
  · rfl

theorem sendError_frame (hj : whatToJson type what = .ok body) (hl : body.length < 2 ^ 63)
    (session : TcpSession) :
    ∃ done session' frame sent, session.sendError type what = .ok (done, session') ∧
      session'.socket.writes = session.socket.writes ++ [(frame, sent)] ∧
      Announces frame (-1) body := by
  obtain ⟨sent, hw⟩ := doWrite_frame (resHeader (-1) body.length) body session
  have hs : session.sendError type what =
      .ok (session.doWrite (resHeader (-1) body.length) body) := by
    rw [sendError, hj]
    rfl
  exact ⟨_, _, _, sent, hs, hw, announces_resHeader (-1) hl⟩

/-- The header is a big-endian codec, and every frame that `run` or `send_error` builds decodes to
its type and to the size of its body. -/
theorem header_codec :
    (∀ header : ProtocolHeader, header.hton.memory = header.wire ∧
      header.hton.memory.length = ProtocolHeader.size ∧
      (ProtocolHeader.ofMemory header.hton.memory).ntoh = header) ∧
    (∀ x : UInt64, NTOHLL (HTONLL x) = x ∧ HTONLL (NTOHLL x) = x) ∧
    (∀ x : Int64, (NTOHLLSigned (HTONLLSigned x).toInt64).toInt64 = x ∧
      (HTONLLSigned (NTOHLLSigned x).toInt64).toInt64 = x) ∧
    (∀ (M : Type) (services : Services M) (manager manager' : M) (header : ProtocolHeader)
      (session session' : TcpSession) (res_json : Bytes),
      session.answer services manager header = (.ok res_json, manager', session') →
      res_json.length < 2 ^ 63 →
      ∃ frame sent, (session.serve services manager header).2.2.socket.writes =
        session'.socket.writes ++ [(frame, sent)] ∧ Announces frame header.type res_json) ∧
    (∀ (session : TcpSession) (type what body : Bytes), whatToJson type what = .ok body →
      body.length < 2 ^ 63 →
      ∃ done session' frame sent, session.sendError type what = .ok (done, session') ∧
        session'.socket.writes = session.socket.writes ++ [(frame, sent)] ∧
        Announces frame (-1) body) := by
  refine ⟨?_, ?_, ?_, ?_, ?_⟩
  · intro header
    refine ⟨header.memory_hton, ?_, header.ntoh_ofMemory_hton⟩
    rw [header.memory_hton, header.length_wire]
  · intro x
    exact ⟨NTOHLL_HTONLL x, HTONLL_NTOHLL x⟩
  · intro x
    simp only [NTOHLLSigned_eq, HTONLLSigned_eq, UInt64.toUInt64_toInt64, NTOHLL_HTONLL,
      HTONLL_NTOHLL, Int64.toInt64_toUInt64, and_self]
  · intro M services manager manager' header session session' res_json ha hl
    exact serve_frame ha hl
  · intro session type what body hj hl
    exact sendError_frame hj hl session

end TcpSession
end OnnxruntimeServer
