import OnnxruntimeServer.TcpUpload

namespace OnnxruntimeServer
set_option autoImplicit true

/-- `x + y` on `int64_t`, which is undefined where the sum is not an `int64_t`. -/
def checkedAdd (x y : Int64) : Option Int64 :=
  if -2 ^ 63 ≤ x.toInt + y.toInt ∧ x.toInt + y.toInt < 2 ^ 63 then some (x + y) else none

namespace TcpSession

/-- The check of `do_read`, without a result where its addition is undefined. -/
def checkedAcceptsHeader (session : TcpSession) (header : ProtocolHeader) : Option Bool :=
  if header.json_length < 0 || header.post_length < 0 ||
      session.request_payload_limit < header.json_length ||
      session.postLimit header < header.post_length then some false
  else (checkedAdd header.json_length header.post_length).map (header.length == ·)

structure WithinLimits (session : TcpSession) (header : ProtocolHeader) : Prop where
  json_nonneg : 0 ≤ header.json_length.toInt
  json_limit : header.json_length.toInt ≤ session.request_payload_limit.toInt
  post_nonneg : 0 ≤ header.post_length.toInt
  post_limit : header.post_length.toInt ≤
    if header.type = Task.CREATE_SESSION then session.model_upload_limit.toInt
    else session.request_payload_limit.toInt

/-- What the check stands for, in unbounded arithmetic. -/
def ValidHeader (session : TcpSession) (header : ProtocolHeader) : Prop :=
  session.WithinLimits header ∧
    header.length.toInt = header.json_length.toInt + header.post_length.toInt

/-- What the buffer holds before the first of these reads and after each of them. -/
def grown (buffer : Bytes) : List (Nat × Bytes) → List Bytes
  | [] => [buffer]
  | r :: reads => buffer :: grown (buffer ++ r.2) reads

/-- What the buffer holds at each moment of `do_read` from its check on. -/
def bufferStates (header : ProtocolHeader) (session : TcpSession) : List Bytes :=
  if !session.acceptsHeader header then [session.buffer]
  else
    let json := readExact header.json_length.toInt.toNat session.socket
    grown session.buffer json.reads ++
      if json.ok ∧ header.type ≠ Task.CREATE_SESSION ∧ 0 < header.post_length then
        grown (session.buffer ++ json.bytes)
          (readExact header.post_length.toInt.toNat json.socket).reads
      else []

/-- How much the buffer may hold for a request. -/
def bufferLimit (header : ProtocolHeader) : Nat :=
  if header.type = Task.CREATE_SESSION then header.json_length.toInt.toNat
  else (header.json_length.toInt + header.post_length.toInt).toNat

/-- The check lets through what it should, it is defined, and the buffer keeps its limit until the
next request. -/
structure HeaderCheckExact (session : TcpSession) (header : ProtocolHeader) : Prop where
  accepts : session.acceptsHeader header = true ↔ session.ValidHeader header
  defined : (session.checkedAcceptsHeader header).isSome
  reading : ∀ buffer ∈ session.bufferStates header, buffer.length ≤ bufferLimit header
  serving : ∀ {M : Type} (services : Services M) (manager : M),
    ((session.readBody header).2.serve services manager header).2.2.buffer.length ≤
      bufferLimit header

variable {session session' : TcpSession} {header : ProtocolHeader}

theorem withinLimits_iff (session : TcpSession) (header : ProtocolHeader) :
    session.WithinLimits header ↔
      (header.json_length < 0 || header.post_length < 0 ||
        session.request_payload_limit < header.json_length ||
        session.postLimit header < header.post_length) = false := by
  have hlimit : (session.postLimit header).toInt =
      if header.type = Task.CREATE_SESSION then session.model_upload_limit.toInt
      else session.request_payload_limit.toInt := by
    rw [postLimit]
    split <;> rfl
  simp only [Bool.or_eq_false_iff, decide_eq_false_iff_not, Int64.not_lt, Int64.le_iff_toInt_le,
    Int64.toInt_zero, hlimit]
  constructor
  · rintro ⟨h₁, h₂, h₃, h₄⟩
    exact ⟨⟨⟨h₁, h₃⟩, h₂⟩, h₄⟩
  · rintro ⟨⟨⟨h₁, h₃⟩, h₂⟩, h₄⟩
    exact ⟨h₁, h₂, h₃, h₄⟩

theorem acceptsHeader_iff (session : TcpSession) (header : ProtocolHeader) :
    session.acceptsHeader header = true ↔
      session.WithinLimits header ∧ header.length = header.json_length + header.post_length := by
  rw [withinLimits_iff, acceptsHeader]
  simp only [Bool.not_eq_true', Bool.or_eq_false_iff, bne_eq_false_iff_eq]

theorem checkedAcceptsHeader_isSome (session : TcpSession) (header : ProtocolHeader) :
    (session.checkedAcceptsHeader header).isSome ↔
      (session.WithinLimits header → header.json_length.toInt + header.post_length.toInt < 2 ^ 63) := by
  rw [checkedAcceptsHeader, withinLimits_iff]
  by_cases h : (header.json_length < 0 || header.post_length < 0 ||
      session.request_payload_limit < header.json_length ||
      session.postLimit header < header.post_length) = true
  · simp [h]
  · rw [Bool.not_eq_true] at h
    have hw := (withinLimits_iff session header).2 h
    have hj := hw.json_nonneg
    have hp := hw.post_nonneg
    rw [if_neg (by simp [h]), Option.isSome_map, checkedAdd]
    split
    · rename_i hsum
      exact ⟨fun _ _ => hsum.2, fun _ => rfl⟩
    · rename_i hsum
      constructor
      · intro hn
        cases hn
      · intro hn
        exact absurd ⟨by omega, hn h⟩ hsum

/-- The check that is defined is the one that is compiled. -/
theorem checkedAcceptsHeader_eq (h : session.checkedAcceptsHeader header = some accepted) :
    session.acceptsHeader header = accepted := by
  rw [checkedAcceptsHeader] at h
  rw [acceptsHeader]
  split at h
  · rename_i hc
    rw [← Option.some.inj h, hc]
    rfl
  · rename_i hc
    rw [Bool.not_eq_true] at hc
    rw [hc, checkedAdd] at *
    split at h
    · rw [Option.map_some] at h
      rw [← Option.some.inj h, Bool.false_or]
      simp [bne]
    · cases h

theorem length_grown_le {start : Bytes} (hb : b ∈ grown start reads) :
    b.length ≤ start.length + (reads.flatMap Prod.snd).length := by
  induction reads generalizing start with
  | nil =>
    obtain rfl := List.mem_singleton.1 hb
    omega
  | cons r reads ih =>
    rcases List.mem_cons.1 hb with rfl | hb
    · omega
    · have hle := ih hb
      rw [List.length_append] at hle
      rw [List.flatMap_cons, List.length_append]
      omega

theorem getLast_grown (start : Bytes) (reads : List (Nat × Bytes)) :
    (grown start reads).getLast? = some (start ++ reads.flatMap Prod.snd) := by
  induction reads generalizing start with
  | nil => simp [grown]
  | cons r reads ih =>
    rw [grown, List.getLast?_cons, ih, List.flatMap_cons, ← List.append_assoc]
    rfl

theorem length_bufferStates (hb : session.buffer = []) (h : b ∈ session.bufferStates header) :
    b.length ≤ bufferLimit header := by
  rw [bufferStates, hb] at h
  split at h
  · obtain rfl := List.mem_singleton.1 h
    exact Nat.zero_le _
  · rename_i ha
    rw [Bool.not_eq_true, Bool.not_eq_false'] at ha
    have hw := ((session.acceptsHeader_iff header).1 ha).1
    have hj := hw.json_nonneg
    have hp := hw.post_nonneg
    have hjson := length_readExact_le header.json_length.toInt.toNat session.socket
    rw [bufferLimit]
    rcases List.mem_append.1 h with h | h
    · have hle := length_grown_le h
      rw [← ReadExact.bytes, List.length_nil] at hle
      split <;> omega
    · split at h
      · rename_i hpost
        have hle := length_grown_le h
        have hrest := length_readExact_le header.post_length.toInt.toNat
          (readExact header.json_length.toInt.toNat session.socket).socket
        rw [← ReadExact.bytes, List.nil_append] at hle
        rw [if_neg hpost.2.1]
        omega
      · cases h

theorem OnlySends.buffer (h : session.OnlySends session') : session'.buffer = session.buffer := by
  obtain ⟨_, _, rfl⟩ := h
  rfl

theorem buffer_readUpload (header : ProtocolHeader) (session : TcpSession) :
    (session.readUpload header).2.buffer = session.buffer := by
  rw [readUpload_eq]
  cases session.uploadDir session.disk.made with
  | error what => rfl
  | ok dir =>
    dsimp only
    split_ifs
    · exact (onlySends_refuse _ _ _).buffer
    · rfl
    · rfl

theorem buffer_readPost (header : ProtocolHeader) (session : TcpSession) :
    (session.readPost header).2.buffer = session.buffer ++
      if header.type ≠ Task.CREATE_SESSION ∧ 0 < header.post_length then
        (readExact header.post_length.toInt.toNat session.socket).bytes
      else [] := by
  rw [readPost]
  by_cases hp : 0 < header.post_length
  · by_cases ht : header.type = Task.CREATE_SESSION
    · rw [if_pos ⟨ht, hp⟩, if_neg (by simp [ht]), buffer_readUpload, List.append_nil]
    · rw [if_neg (by simp [ht]), if_pos hp, if_pos ⟨ht, hp⟩]
      have hread : (session.readBuffer header.post_length).2.buffer = session.buffer ++
          (readExact header.post_length.toInt.toNat session.socket).bytes := rfl
      rw [← hread]
      generalize session.readBuffer header.post_length = read
      obtain ⟨_ | _, session'⟩ := read <;> rfl
  · rw [if_neg (by simp [hp]), if_neg hp, if_neg (by simp [hp]), List.append_nil]

theorem getLast_bufferStates (header : ProtocolHeader) (session : TcpSession) :
    (session.bufferStates header).getLast? = some (session.readBody header).2.buffer := by
  rw [bufferStates, readBody]
  split
  · rw [(onlySends_refuse _ _ _).buffer]
    rfl
  · have hjson := getLast_grown session.buffer
      (readExact header.json_length.toInt.toNat session.socket).reads
    rw [readBuffer]
    cases hok : (readExact header.json_length.toInt.toNat session.socket).ok with
    | false =>
      simp only [hok, Bool.false_eq_true, false_and, if_false, List.append_nil]
      exact hjson
    | true =>
      simp only [hok, true_and, buffer_readPost]
      split
      · rw [List.getLast?_append, getLast_grown]
        rfl
      · rw [List.append_nil, List.append_nil]
        exact hjson

theorem atHeader_buffer (session : TcpSession) : session.atHeader.buffer = [] := by
  obtain ⟨files, hclean⟩ := cleanupUpload_spec { session with buffer := [] }
  rw [atHeader, hclean]

theorem doRead_of_readHeader (h : session.atHeader.readHeader = (some header, session')) :
    session.doRead = session'.readBody header ∧ session'.buffer = [] := by
  constructor
  · rw [doRead, ← atHeader, h]
  · have hs : session' = session.atHeader.readHeader.2 := by rw [h]
    rw [hs, ← session.atHeader_buffer, readHeader]
    dsimp only
    split_ifs <;> rfl

theorem validHeader_iff (h : header.json_length.toInt + header.post_length.toInt < 2 ^ 63)
    (hw : session.WithinLimits header) :
    header.length = header.json_length + header.post_length ↔
      header.length.toInt = header.json_length.toInt + header.post_length.toInt := by
  have hj := hw.json_nonneg
  have hp := hw.post_nonneg
  rw [← Int64.toInt_inj, Int64.toInt_add, Int.bmod_eq_of_le (by omega) (by omega)]

/-- The limits rule an overflow out exactly when the largest sums of two lengths that they allow are
below `2 ^ 63`. -/
theorem no_overflow_iff (session : TcpSession) :
    (∀ header, ¬ (session.WithinLimits header ∧
      2 ^ 63 ≤ header.json_length.toInt + header.post_length.toInt)) ↔
      session.request_payload_limit.toInt < 0 ∨
        2 * session.request_payload_limit.toInt < 2 ^ 63 ∧
          session.request_payload_limit.toInt + session.model_upload_limit.toInt < 2 ^ 63 := by
  constructor
  · intro h
    by_contra hn
    obtain ⟨hr, hn⟩ := not_or.1 hn
    rw [not_lt] at hr
    by_cases h₂ : 2 * session.request_payload_limit.toInt < 2 ^ 63
    · have hm : 2 ^ 63 ≤ session.request_payload_limit.toInt + session.model_upload_limit.toInt :=
        not_lt.1 fun hlt => hn ⟨h₂, hlt⟩
      apply h ⟨Task.CREATE_SESSION, 0, session.request_payload_limit, session.model_upload_limit⟩
      refine ⟨⟨hr, le_rfl, ?_, ?_⟩, hm⟩
      · have := session.request_payload_limit.toInt_lt
        dsimp only
        omega
      · rw [if_pos rfl]
    · apply h ⟨Task.LIST_SESSION, 0, session.request_payload_limit, session.request_payload_limit⟩
      refine ⟨⟨hr, le_rfl, hr, ?_⟩, ?_⟩
      · rw [if_neg (show ¬ Task.LIST_SESSION = Task.CREATE_SESSION by decide)]
      · dsimp only
        omega
  · rintro hlimits header ⟨hw, hsum⟩
    have hj := hw.json_limit
    have hj0 := hw.json_nonneg
    have hp := hw.post_limit
    split at hp <;> omega

/-- The check of a header is exact unless both lengths keep their limits and their sum is not an
`int64_t` any more. -/
theorem header_check_exact_iff (h : session.atHeader.readHeader = (some header, session')) :
    session.doRead = session'.readBody header ∧
      (session'.HeaderCheckExact header ↔ ¬ (session'.WithinLimits header ∧
        2 ^ 63 ≤ header.json_length.toInt + header.post_length.toInt)) := by
  obtain ⟨hread, hb⟩ := doRead_of_readHeader h
  refine ⟨hread, ?_⟩
  rw [not_and, not_le]
  constructor
  · intro hexact
    exact (checkedAcceptsHeader_isSome _ _).1 hexact.defined
  · intro hsum
    have hlast : (session'.readBody header).2.buffer ∈ session'.bufferStates header :=
      List.mem_of_getLast? (getLast_bufferStates header session')
    refine ⟨?_, (checkedAcceptsHeader_isSome _ _).2 hsum, fun b => length_bufferStates hb, ?_⟩
    · rw [acceptsHeader_iff, ValidHeader]
      exact and_congr_right fun hw => validHeader_iff (hsum hw) hw
    · intro M services manager
      rw [(onlySends_serve services manager header _).buffer]
      exact length_bufferStates hb hlast

theorem header_check_exact_listFrame :
    ((reading [listFrame.bytes]).atHeader.readHeader.2).HeaderCheckExact listFrame.header := by
  have hread : (reading [listFrame.bytes]).atHeader.readHeader =
      (some listFrame.header, (reading [listFrame.bytes]).atHeader.readHeader.2) := rfl
  apply (header_check_exact_iff hread).2.2
  rintro ⟨_, hsum⟩
  exact absurd hsum (by decide)

def unlimited : TcpSession :=
  { reading [] with request_payload_limit := Int64.maxValue, model_upload_limit := Int64.maxValue }

def wrappedHeader : ProtocolHeader := 
  ⟨Task.LIST_SESSION, Int64.minValue, 4611686018427387904, 4611686018427387904⟩

/-- Two lengths of 2 ^ 62 pass for a total of - 2 ^ 63. -/
theorem header_check_wraps :
    unlimited.acceptsHeader wrappedHeader = true ∧
      unlimited.checkedAcceptsHeader wrappedHeader = none ∧
      ¬ unlimited.ValidHeader wrappedHeader := by
  refine ⟨by decide, by decide, ?_⟩
  rintro ⟨_, hlength⟩
  exact absurd hlength (by decide)

end TcpSession
end OnnxruntimeServer
