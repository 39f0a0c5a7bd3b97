import OnnxruntimeServer.Utf8
import OnnxruntimeServer.Lib.Chunks

namespace OnnxruntimeServer
set_option autoImplicit true

/-- A connected socket. An empty chunk is a read that fails, and the end of the list is the end of
the stream. `fate k` decides the `k`-th write: an error, or how far it gets past its first byte. -/
structure Socket where
  chunks : List Bytes
  fate : Nat → Option Nat
  writes : List (Bytes × Nat)
  peer : Except Bytes Bytes

namespace Socket

def readSome (n : Nat) (socket : Socket) : Bytes × Socket :=
  let (piece, chunks) := Chunks.readSome n socket.chunks
  (piece, { socket with chunks })

/-- `write_some`: some non-empty prefix of the bytes offered, or an error. -/
def writeSome (bytes : Bytes) (socket : Socket) : Option Nat × Socket :=
  match socket.fate socket.writes.length with
  | none => (none, { socket with writes := socket.writes ++ [(bytes, 0)] })
  | some n =>
    let sent := min (n + 1) bytes.length
    (some sent, { socket with writes := socket.writes ++ [(bytes, sent)] })

def sent (socket : Socket) : Bytes := socket.writes.flatMap fun w => w.1.take w.2

end Socket

def MAX_RECV_BUF_LENGTH : Nat := 1024 * 1024 * 4

/-- What `read_exact` does: its result, what each read asked for and got, and the socket after. -/
structure ReadExact where
  ok : Bool
  reads : List (Nat × Bytes)
  socket : Socket

def ReadExact.bytes (r : ReadExact) : Bytes := r.reads.flatMap Prod.snd

def readExactFrom : Nat → Nat → Socket → ReadExact
  | 0, length, socket => ⟨length == 0, [], socket⟩
  | fuel + 1, length, socket =>
    if length = 0 then ⟨true, [], socket⟩
    else
      let asked := min MAX_RECV_BUF_LENGTH length
      let (piece, socket) := socket.readSome asked
      if piece = [] then ⟨false, [(asked, [])], socket⟩
      else
        let rest := readExactFrom fuel (length - piece.length) socket
        { rest with reads := (asked, piece) :: rest.reads }

/-- `read_exact`. A round that goes on has read a byte, so `length` rounds are enough. -/
def readExact (length : Nat) (socket : Socket) : ReadExact := readExactFrom length length socket

variable {socket : Socket}

theorem Socket.readSome_spec (hc : ∀ c ∈ socket.chunks, c ≠ []) (hn : 0 < n)
    (hs : socket.chunks.flatten ≠ []) :
    ∃ piece, piece ≠ [] ∧ piece.length ≤ n ∧
      piece = socket.chunks.flatten.take piece.length ∧
      socket.readSome n =
        (piece, { socket with chunks := Chunks.advance piece.length socket.chunks }) := by
  refine ⟨(Chunks.readSome n socket.chunks).1, ?_, Chunks.readSome_length_le _ _,
    Chunks.readSome_fst _ _, ?_⟩
  · cases h : socket.chunks with
    | nil => exact absurd (by rw [h, List.flatten_nil]) hs
    | cons c cs =>
      have hne := hc c (by rw [h]; exact List.mem_cons_self)
      exact List.ne_nil_of_length_pos (Chunks.readSome_cons_length hn hne)
  · rw [← Chunks.readSome_snd hc]
    rfl

theorem readExactFrom_zero (fuel : Nat) (socket : Socket) :
    readExactFrom fuel 0 socket = ⟨true, [], socket⟩ := by
  cases fuel <;> rfl

theorem readExactFrom_failed {socket' : Socket} (hl : length ≠ 0)
    (hr : socket.readSome (min MAX_RECV_BUF_LENGTH length) = ([], socket')) (fuel : Nat) :
    readExactFrom (fuel + 1) length socket =
      ⟨false, [(min MAX_RECV_BUF_LENGTH length, [])], socket'⟩ := by
  rw [readExactFrom, if_neg hl]
  simp only [hr, if_true]

theorem readExactFrom_succ {socket' : Socket} (hl : length ≠ 0)
    (hr : socket.readSome (min MAX_RECV_BUF_LENGTH length) = (piece, socket')) (hp : piece ≠ [])
    (fuel : Nat) :
    readExactFrom (fuel + 1) length socket =
      { readExactFrom fuel (length - piece.length) socket' with
        reads := (min MAX_RECV_BUF_LENGTH length, piece) ::
          (readExactFrom fuel (length - piece.length) socket').reads } := by
  rw [readExactFrom, if_neg hl]
  simp only [hr, if_neg hp]

/-- `read_exact` terminates: rounds beyond the first `length` change nothing. -/
theorem readExactFrom_eq (hf : length ≤ fuel) (socket : Socket) :
    readExactFrom fuel length socket = readExact length socket := by
  rw [readExact]
  induction fuel using Nat.strong_induction_on generalizing length socket with
  | _ fuel ih =>
    cases length with
    | zero => rw [readExactFrom_zero, readExactFrom_zero]
    | succ length =>
      obtain ⟨fuel, rfl⟩ := Nat.exists_eq_succ_of_ne_zero (Nat.ne_zero_of_lt hf)
      cases hr : socket.readSome (min MAX_RECV_BUF_LENGTH (length + 1)) with
      | mk piece socket' =>
        cases piece with
        | nil =>
          rw [readExactFrom_failed (Nat.succ_ne_zero _) hr,
            readExactFrom_failed (Nat.succ_ne_zero _) hr]
        | cons b piece =>
          have hle : length + 1 - (b :: piece).length ≤ length := by simp
          rw [readExactFrom_succ (Nat.succ_ne_zero _) hr (List.cons_ne_nil _ _),
            readExactFrom_succ (Nat.succ_ne_zero _) hr (List.cons_ne_nil _ _),
            ih fuel (Nat.lt_succ_self _) (hle.trans (Nat.le_of_succ_le_succ hf)),
            ih length hf hle]

theorem readExact_zero (socket : Socket) : readExact 0 socket = ⟨true, [], socket⟩ := rfl

theorem readExact_failed {socket' : Socket} (hl : length ≠ 0)
    (hr : socket.readSome (min MAX_RECV_BUF_LENGTH length) = ([], socket')) :
    readExact length socket = ⟨false, [(min MAX_RECV_BUF_LENGTH length, [])], socket'⟩ := by
  obtain ⟨n, rfl⟩ := Nat.exists_eq_succ_of_ne_zero hl
  exact readExactFrom_failed hl hr n

theorem readExact_more {socket' : Socket} (hl : length ≠ 0)
    (hr : socket.readSome (min MAX_RECV_BUF_LENGTH length) = (piece, socket'))
    (hp : piece ≠ []) :
    readExact length socket =
      { readExact (length - piece.length) socket' with
        reads := (min MAX_RECV_BUF_LENGTH length, piece) ::
          (readExact (length - piece.length) socket').reads } := by
  have hgt := List.length_pos_of_ne_nil hp
  obtain ⟨n, rfl⟩ := Nat.exists_eq_succ_of_ne_zero hl
  rw [← readExactFrom_eq (show n + 1 - piece.length ≤ n by omega)]
  exact readExactFrom_succ hl hr hp n

theorem readExact_induct {motive : Nat → Socket → Prop}
    (done : ∀ socket, motive 0 socket)
    (failed : ∀ length socket socket', length ≠ 0 →
      socket.readSome (min MAX_RECV_BUF_LENGTH length) = ([], socket') → motive length socket)
    (more : ∀ length socket piece socket', length ≠ 0 →
      socket.readSome (min MAX_RECV_BUF_LENGTH length) = (piece, socket') → piece ≠ [] →
      motive (length - piece.length) socket' → motive length socket)
    (length : Nat) (socket : Socket) : motive length socket := by
  induction length using Nat.strong_induction_on generalizing socket with
  | _ length ih =>
    by_cases hl : length = 0
    · rw [hl]
      exact done socket
    · cases hr : socket.readSome (min MAX_RECV_BUF_LENGTH length) with
      | mk piece socket' =>
        by_cases hp : piece = []
        · exact failed length socket socket' hl (hp ▸ hr)
        · have hgt := List.length_pos_of_ne_nil hp
          exact more length socket piece socket' hl hr hp (ih _ (by omega) socket')

theorem Socket.readSome_length (h : socket.readSome n = (piece, socket')) : piece.length ≤ n := by
  have hle : (socket.readSome n).1.length ≤ n := Chunks.readSome_length_le n socket.chunks
  rwa [h] at hle

theorem Socket.readSome_append (h : socket.readSome n = (piece, socket')) :
    socket.chunks.flatten = piece ++ socket'.chunks.flatten := by
  rw [← Chunks.readSome_append n socket.chunks]
  exact congrArg (fun r : Bytes × Socket => r.1 ++ r.2.chunks.flatten) h

theorem length_readExact_le (length : Nat) (socket : Socket) :
    (readExact length socket).bytes.length ≤ length := by
  induction length, socket using readExact_induct with
  | done socket => exact le_rfl
  | failed length socket socket' hl hr =>
    rw [readExact_failed hl hr]
    exact Nat.zero_le _
  | more length socket piece socket' hl hr hp ih =>
    have hle := Socket.readSome_length hr
    rw [readExact_more hl hr hp]
    change (piece ++ (readExact (length - piece.length) socket').bytes).length ≤ length
    rw [List.length_append]
    omega

theorem readExact_append (length : Nat) (socket : Socket) :
    socket.chunks.flatten =
      (readExact length socket).bytes ++ (readExact length socket).socket.chunks.flatten := by
  induction length, socket using readExact_induct with
  | done socket => rfl
  | failed length socket socket' hl hr =>
    rw [readExact_failed hl hr]
    exact Socket.readSome_append hr
  | more length socket piece socket' hl hr hp ih =>
    rw [readExact_more hl hr hp, Socket.readSome_append hr, ih]
    exact (List.append_assoc ..).symm

theorem readExact_ok_iff (length : Nat) (socket : Socket) :
    (readExact length socket).ok = true ↔ (readExact length socket).bytes.length = length := by
  induction length, socket using readExact_induct with
  | done socket => exact ⟨fun _ => rfl, fun _ => rfl⟩
  | failed length socket socket' hl hr =>
    rw [readExact_failed hl hr]
    exact ⟨fun h => (Bool.false_ne_true h).elim, fun h => (hl h.symm).elim⟩
  | more length socket piece socket' hl hr hp ih =>
    have hle := Socket.readSome_length hr
    rw [readExact_more hl hr hp]
    change (readExact (length - piece.length) socket').ok = true ↔
      (piece ++ (readExact (length - piece.length) socket').bytes).length = length
    rw [ih, List.length_append]
    omega

theorem readExact_ok (h : (readExact length socket).ok = true) :
    (readExact length socket).bytes.length = length ∧
      socket.chunks.flatten = (readExact length socket).bytes ++
        (readExact length socket).socket.chunks.flatten :=
  ⟨(readExact_ok_iff length socket).1 h, readExact_append length socket⟩

/-- Where the stream holds enough bytes, `read_exact` passes on exactly the next ones. -/
theorem readExact_of_le (hc : ∀ c ∈ socket.chunks, c ≠ [])
    (hl : length ≤ socket.chunks.flatten.length) :
    (readExact length socket).ok = true ∧
      (readExact length socket).bytes = socket.chunks.flatten.take length ∧
      (readExact length socket).socket =
        { socket with chunks := Chunks.advance length socket.chunks } := by
  induction length, socket using readExact_induct with
  | done socket =>
    rw [readExact_zero, Chunks.advance_zero hc]
    exact ⟨rfl, rfl, rfl⟩
  | failed length socket socket' hz hr =>
    obtain ⟨piece, hne, _, _, hread⟩ := Socket.readSome_spec hc
      (show 0 < min MAX_RECV_BUF_LENGTH length from lt_min (by decide) (Nat.pos_of_ne_zero hz))
      (List.ne_nil_of_length_pos (by omega))
    exact absurd (congrArg Prod.fst (hread.symm.trans hr)) hne
  | more length socket piece socket' hz hr hp ih =>
    have hle := Socket.readSome_length hr
    have happend := Socket.readSome_append hr
    have hsocket :
        socket' = { socket with chunks := Chunks.advance piece.length socket.chunks } := by
      obtain ⟨piece', _, _, _, hread⟩ := Socket.readSome_spec hc
        (show 0 < min MAX_RECV_BUF_LENGTH length from lt_min (by decide) (Nat.pos_of_ne_zero hz))
        (List.ne_nil_of_length_pos (by omega))
      obtain ⟨rfl, rfl⟩ := Prod.mk.inj (hread.symm.trans hr)
      rfl
    have hc' : ∀ c ∈ socket'.chunks, c ≠ [] := by
      rw [hsocket]
      exact Chunks.nonempty_advance hc _
    have hl' : length - piece.length ≤ socket'.chunks.flatten.length := by
      rw [happend, List.length_append] at hl
      omega
    obtain ⟨hok, hbytes, hrest⟩ := ih hc' hl'
    rw [readExact_more hz hr hp]
    refine ⟨hok, ?_, ?_⟩
    · change piece ++ (readExact (length - piece.length) socket').bytes = _
      rw [hbytes, happend, List.take_append,
        List.take_of_length_le (hle.trans (min_le_right _ _))]
    · rw [hrest, hsocket, Chunks.advance_add, Nat.add_sub_cancel' (by omega)]

theorem readExact_reads (h : (readExact length socket).reads = before ++ (asked, piece) :: after) :
    0 < asked ∧ asked ≤ MAX_RECV_BUF_LENGTH ∧
      (before.flatMap Prod.snd).length + asked ≤ length ∧ piece.length ≤ asked := by
  induction length, socket using readExact_induct generalizing before with
  | done socket => simp [readExact_zero] at h
  | failed length socket socket' hl hr =>
    rw [readExact_failed hl hr] at h
    cases before with
    | nil =>
      obtain ⟨hread, _⟩ := List.cons.inj h
      obtain ⟨rfl, rfl⟩ := Prod.mk.inj hread
      exact ⟨lt_min (by decide) (Nat.pos_of_ne_zero hl), min_le_left _ _, by simp, Nat.zero_le _⟩
    | cons read before => simp at h
  | more length socket piece' socket' hl hr hp ih =>
    have hle := Socket.readSome_length hr
    rw [readExact_more hl hr hp] at h
    cases before with
    | nil =>
      obtain ⟨hread, _⟩ := List.cons.inj h
      obtain ⟨rfl, rfl⟩ := Prod.mk.inj hread
      exact ⟨lt_min (by decide) (Nat.pos_of_ne_zero hl), min_le_left _ _, by simp, hle⟩
    | cons read before =>
      obtain ⟨rfl, htail⟩ := List.cons.inj h
      obtain ⟨hpos, hmax, hmissing, hpiece⟩ := ih htail
      refine ⟨hpos, hmax, ?_, hpiece⟩
      rw [List.flatMap_cons, List.length_append]
      dsimp only
      omega

/-- `read_exact` consumes exactly the announced bytes, however the stream is cut and wherever it
fails; it does so whenever the stream holds them. -/
theorem readExact_exact (length : Nat) (socket : Socket) :
    (∀ fuel, length ≤ fuel → readExactFrom fuel length socket = readExact length socket) ∧
      socket.chunks.flatten =
        (readExact length socket).bytes ++ (readExact length socket).socket.chunks.flatten ∧
      (readExact length socket).bytes.length ≤ length ∧
      ((readExact length socket).ok = true ↔ (readExact length socket).bytes.length = length) ∧
      ((∀ c ∈ socket.chunks, c ≠ []) → length ≤ socket.chunks.flatten.length →
        (readExact length socket).ok = true ∧
          (readExact length socket).bytes = socket.chunks.flatten.take length ∧
          (readExact length socket).socket.chunks.flatten = socket.chunks.flatten.drop length) ∧
      ∀ before asked piece after,
        (readExact length socket).reads = before ++ (asked, piece) :: after →
          asked ≤ MAX_RECV_BUF_LENGTH ∧ asked ≤ length - (before.flatMap Prod.snd).length ∧
            piece.length ≤ asked := by
  refine ⟨fun fuel hf => readExactFrom_eq hf socket, readExact_append length socket,
    length_readExact_le length socket, readExact_ok_iff length socket, ?_, ?_⟩
  · intro hc hl
    obtain ⟨hok, hbytes, hsocket⟩ := readExact_of_le hc hl
    refine ⟨hok, hbytes, ?_⟩
    rw [hsocket]
    exact Chunks.flatten_advance length socket.chunks
  · intro before asked piece after h
    obtain ⟨_, hmax, hmissing, hpiece⟩ := readExact_reads h
    exact ⟨hmax, by omega, hpiece⟩

end OnnxruntimeServer
