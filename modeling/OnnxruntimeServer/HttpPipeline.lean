import OnnxruntimeServer.Reply
import OnnxruntimeServer.Lib.Chunks

namespace OnnxruntimeServer
set_option autoImplicit true

variable {beast : Beast} {session : HttpSession}

namespace Beast

/-- A complete keep-alive request: the parser wants more until it has all of it, and then takes
exactly that, whatever follows. -/
structure Message (beast : Beast) (body_limit : Nat) (message : Bytes) : Prop where
  whole : ∀ rest, beast.frame body_limit (message ++ rest) = .done message.length
  part : ∀ part rest, message = part ++ rest → rest ≠ [] →
    beast.frame body_limit part = .needMore
  nonempty : message ≠ []
  keep_alive : (beast.request message).keep_alive = true

theorem read_done (h : beast.parse body_limit buffer = .done n) (chunks : List Bytes) :
    beast.read body_limit buffer chunks = (.ok (buffer.take n), buffer.drop n, chunks) := by
  cases chunks with
  | nil =>
    rw [read]
    simp only [h]
  | cons chunk chunks =>
    rw [read]
    simp only [h]

theorem read_needMore (h : beast.parse body_limit buffer = .needMore) (hc : chunk ≠ [])
    (chunks : List Bytes) :
    beast.read body_limit buffer (chunk :: chunks) =
      beast.read body_limit (buffer ++ chunk) chunks := by
  have hne : chunk.isEmpty = false := by simpa using hc
  rw [read.eq_def beast body_limit buffer (chunk :: chunks)]
  simp only [h, hne, Bool.false_eq_true, if_false]

/-- The outcome of reading the rest of a message of which `missing` is still to come: whole chunks
are used up, and there is no surplus exactly when a chunk ends where the message does. -/
def ReadsMessage (chunks : List Bytes) (missing message rest : Bytes)
    (outcome : Except ReadError Bytes × Bytes × List Bytes) : Prop :=
  outcome.1 = .ok message ∧ outcome.2.1 ++ outcome.2.2.flatten = rest ∧
    (∀ c ∈ outcome.2.2, c ≠ []) ∧ outcome.2.2.length < chunks.length ∧
    (outcome.2.1 = [] ↔ Chunks.Cut chunks missing.length) ∧
    (outcome.2.1 = [] → outcome.2.2 = Chunks.advance missing.length chunks)

theorem Message.read_last (hm : beast.Message body_limit message)
    (hb : message = buffer ++ missing) (hne : missing ≠ []) {cs : List Bytes}
    (hc : ∀ c ∈ cs, c ≠ []) (surplus : Bytes) :
    ReadsMessage ((missing ++ surplus) :: cs) missing message (surplus ++ cs.flatten)
      (beast.read body_limit (buffer ++ (missing ++ surplus)) cs) := by
  have hparse : beast.parse body_limit (buffer ++ (missing ++ surplus)) = .done message.length := by
    rw [Beast.parse, ← List.append_assoc, ← hb, if_neg (by simp [hm.nonempty])]
    exact hm.whole surplus
  rw [read_done hparse, ← List.append_assoc, ← hb, List.take_left, List.drop_left]
  refine ⟨rfl, rfl, hc, by simp, ?_, fun h => ?_⟩
  · rw [Chunks.cut_cons, List.length_append]
    dsimp only
    have hpos := List.length_pos_of_ne_nil hne
    constructor
    · rintro rfl
      exact .inr ⟨by simp, by simpa using Chunks.cut_zero cs⟩
    · rintro (h | ⟨h, _⟩)
      · omega
      · exact List.length_eq_zero_iff.1 (by omega)
  · obtain rfl : surplus = [] := h
    rw [List.append_nil, Chunks.advance, if_neg (lt_irrefl _), Nat.sub_self,
      Chunks.advance_zero hc]

theorem Message.read (hm : beast.Message body_limit message) {chunks : List Bytes}
    (hc : ∀ c ∈ chunks, c ≠ []) (hb : message = buffer ++ missing) (hne : missing ≠ [])
    (hs : chunks.flatten = missing ++ rest) :
    ReadsMessage chunks missing message rest (beast.read body_limit buffer chunks) := by
  induction chunks generalizing buffer missing with
  | nil => exact absurd (List.append_eq_nil_iff.1 hs.symm).1 hne
  | cons c cs ih =>
    have hcne := hc c List.mem_cons_self
    have hcs : ∀ d ∈ cs, d ≠ [] := fun d hd => hc d (List.mem_cons_of_mem _ hd)
    have hmore : beast.parse body_limit buffer = .needMore := by
      rw [Beast.parse]
      split_ifs
      · rfl
      · exact hm.part buffer missing hb hne
    rw [read_needMore hmore hcne]
    rw [List.flatten_cons] at hs
    rcases List.append_eq_append_iff.1 hs with ⟨more, hmiss, hcs'⟩ | ⟨surplus, hcs', hrest⟩
    · rcases eq_or_ne more [] with rfl | hmne
      · rw [List.append_nil] at hmiss
        rw [List.nil_append] at hcs'
        subst hmiss
        have := hm.read_last hb hne hcs []
        rwa [List.append_nil, List.nil_append, hcs'] at this
      · have hlen : missing.length = c.length + more.length := by rw [hmiss, List.length_append]
        have hpos := List.length_pos_of_ne_nil hmne
        have hb' : message = (buffer ++ c) ++ more := by rw [hb, hmiss, List.append_assoc]
        obtain ⟨hok, hflat, hne', hshort, hcut, hadv⟩ := ih hcs hb' hmne hcs'
        refine ⟨hok, hflat, hne', by rw [List.length_cons]; omega, ?_, fun h => ?_⟩
        · rw [hcut, Chunks.cut_cons, show missing.length - c.length = more.length by omega]
          constructor
          · exact fun h => .inr ⟨by omega, h⟩
          · rintro (h | ⟨_, h⟩)
            · omega
            · exact h
        · rw [hadv h, Chunks.advance, if_neg (by omega),
            show missing.length - c.length = more.length by omega]
    · rw [hcs', hrest]
      exact hm.read_last hb hne hcs surplus

theorem read_failed (h : beast.parse body_limit buffer = .failed) (chunks : List Bytes) :
    beast.read body_limit buffer chunks = (.error .other, buffer, chunks) := by
  rw [read.eq_def beast body_limit buffer chunks, h]

theorem read_buffered {chunks chunks' : List Bytes} (hp : beast.parse body_limit buffer ≠ .needMore)
    (h : beast.read body_limit buffer chunks = (.ok message, surplus, chunks')) :
    message.length ≤ buffer.length ∧ chunks' = chunks ∧ buffer ≠ [] := by
  have hne : buffer ≠ [] := by
    rintro rfl
    exact hp rfl
  cases hq : beast.parse body_limit buffer with
  | needMore => exact absurd hq hp
  | failed =>
    rw [read_failed hq] at h
    cases (Prod.mk.inj h).1
  | done n =>
    rw [read_done hq] at h
    obtain ⟨hm, hs⟩ := Prod.mk.inj h
    refine ⟨?_, (Prod.mk.inj hs).2.symm, hne⟩
    rw [← Except.ok.inj hm, List.length_take]
    omega

/-- Whatever is read: no byte is made up, and from an empty buffer at least one chunk is used. -/
theorem read_length {chunks chunks' : List Bytes}
    (h : beast.read body_limit buffer chunks = (.ok message, surplus, chunks')) :
    message.length + chunks'.flatten.length ≤ buffer.length + chunks.flatten.length ∧
      chunks'.length ≤ chunks.length ∧ (buffer = [] → chunks'.length < chunks.length) := by
  induction chunks generalizing buffer with
  | nil =>
    by_cases hp : beast.parse body_limit buffer = .needMore
    · rw [read.eq_def, hp] at h
      cases (Prod.mk.inj h).1
    · obtain ⟨hlen, rfl, hne⟩ := read_buffered hp h
      exact ⟨by omega, le_rfl, fun he => absurd he hne⟩
  | cons c cs ih =>
    by_cases hp : beast.parse body_limit buffer = .needMore
    · rcases eq_or_ne c [] with rfl | hc
      · rw [read.eq_def, hp] at h
        cases (Prod.mk.inj h).1
      · rw [read_needMore hp hc] at h
        obtain ⟨hlen, hcount, _⟩ := ih h
        rw [List.length_append] at hlen
        rw [List.flatten_cons, List.length_append, List.length_cons]
        exact ⟨by omega, by omega, fun _ => by omega⟩
    · obtain ⟨hlen, rfl, hne⟩ := read_buffered hp h
      exact ⟨by omega, le_rfl, fun he => absurd he hne⟩

end Beast

namespace HttpSession

def SameConnection (session session' : HttpSession) : Prop :=
  (∃ remote_endpoint, session' = { session with remote_endpoint }) ∧
    (session'.PeerKnown ↔ session.PeerKnown)

theorem getRemoteEndpoint_same {session' : HttpSession}
    (h : session.getRemoteEndpoint = .ok session') : SameConnection session session' := by
  have hp : session.PeerKnown := peerKnown_iff.2 ⟨session', h⟩
  rw [getRemoteEndpoint] at h
  split at h
  · rw [← Except.ok.inj h]
    exact ⟨⟨session.remote_endpoint, rfl⟩, Iff.rfl⟩
  · split at h
    · cases h
    · rename_i peer hpeer
      rw [← Except.ok.inj h]
      exact ⟨⟨peer, rfl⟩, iff_of_true (.inr ⟨peer, hpeer⟩) hp⟩

theorem handleRequest_same (services : HttpServices M) (manager : M) (req : HttpRequest)
    (session : HttpSession) :
    (session.handleRequest services manager req).2.1 = (req.answer services manager).2 ∧
      SameConnection session (session.handleRequest services manager req).2.2 := by
  rw [handleRequest]
  rcases ha : req.answer services manager with ⟨e | res, manager'⟩
  · dsimp only
    cases he : session.getRemoteEndpoint with
    | error e' => exact ⟨rfl, ⟨session.remote_endpoint, rfl⟩, Iff.rfl⟩
    | ok session' => exact ⟨rfl, getRemoteEndpoint_same he⟩
  · exact ⟨rfl, ⟨session.remote_endpoint, rfl⟩, Iff.rfl⟩

/-- What it takes to answer a request that was read: the peer's name for the log, an answer, and a
write that succeeds. -/
def Answerable (services : HttpServices M) (manager : M) (req : HttpRequest)
    (session : HttpSession) : Prop :=
  session.PeerKnown ∧ req.Quotable services manager ∧ session.fate session.written = true

theorem run_read (services : HttpServices M) (secure : Bool) (fuel : Nat) (manager : M)
    {session₁ : HttpSession} (hr : doRead beast session = (.ok message, session₁)) :
    (Answerable services manager (beast.request message) session₁ ∧
      ∃ res session', SameConnection { session₁ with written := session₁.written + 1 } session' ∧
        (run services beast secure (fuel + 1) manager session).1 = ⟨message, res⟩ ::
          if (beast.request message).keep_alive then
            (run services beast secure fuel ((beast.request message).answer services manager).2
              session').1
          else []) ∨
      ¬ Answerable services manager (beast.request message) session₁ ∧
        (run services beast secure (fuel + 1) manager session).1 = [] := by
  have hsec : (if secure then httpsDoRead beast session else doRead beast session) =
      (.ok message, session₁) := by
    cases secure <;> exact hr
  have hiff := handleRequest_iff services manager (beast.request message) session₁
  obtain ⟨hm, hsame⟩ := handleRequest_same services manager (beast.request message) session₁
  rw [run, hsec]
  dsimp only
  rcases hh : session₁.handleRequest services manager (beast.request message) with
    ⟨e | res, manager', session₂⟩
  · refine .inr ⟨fun h => ?_, rfl⟩
    obtain ⟨res, hres⟩ := hiff.2 ⟨h.2.1, fun _ => h.1⟩
    rw [hh] at hres
    cases hres
  · rw [hh] at hm hsame hiff
    have hq := (hiff.1 ⟨res, rfl⟩).1
    dsimp only at hm hsame ⊢
    cases he : session₂.getRemoteEndpoint with
    | error e =>
      refine .inr ⟨fun h => ?_, rfl⟩
      obtain ⟨session₃, hok⟩ := peerKnown_iff.1 (hsame.2.2 h.1)
      rw [he] at hok
      cases hok
    | ok session₃ =>
      have hp : session₁.PeerKnown := hsame.2.1 (peerKnown_iff.2 ⟨session₃, he⟩)
      obtain ⟨⟨name₂, h₂⟩, hp₂⟩ := hsame
      obtain ⟨⟨name₃, h₃⟩, hp₃⟩ := getRemoteEndpoint_same he
      subst h₂ h₃
      cases hf : session₁.fate session₁.written with
      | false =>
        refine .inr ⟨fun h => ?_, ?_⟩
        · rw [Answerable, hf] at h
          cases h.2.2
        · simp only [doWrite, hf]
      | true =>
        refine .inl ⟨⟨hp, hq, hf⟩, res, _, ⟨⟨name₃, rfl⟩, hp₃.trans hp₂⟩, ?_⟩
        simp only [doWrite, hf, ← hm]
        split_ifs <;> rfl

theorem run_readError (services : HttpServices M) (secure : Bool) (fuel : Nat) (manager : M)
    {session₁ : HttpSession} (hr : doRead beast session = (.error e, session₁)) :
    (run services beast secure (fuel + 1) manager session).1 = [] := by
  have hsec : (if secure then httpsDoRead beast session else doRead beast session) =
      (.error e, session₁) := by
    cases secure <;> exact hr
  rw [run, hsec]
  cases e with
  | endOfStream => rfl
  | other =>
    dsimp only
    cases session₁.getRemoteEndpoint <;> rfl

def messages (exchanges : List Exchange) : Bytes := exchanges.flatMap Exchange.message

theorem length_messages_le (services : HttpServices M) (beast : Beast) (secure : Bool)
    (fuel : Nat) (manager : M) (session : HttpSession) :
    (messages (run services beast secure fuel manager session).1).length ≤
      session.stream.flatten.length := by
  induction fuel generalizing manager session with
  | zero => exact Nat.zero_le _
  | succ fuel ih =>
    rcases hr : doRead beast session with ⟨e | message, session₁⟩
    · rw [run_readError services secure fuel manager hr]
      exact Nat.zero_le _
    · have hlen : message.length + session₁.stream.flatten.length ≤
          session.stream.flatten.length := by
        rw [doRead] at hr
        obtain ⟨hm, rfl⟩ := Prod.mk.inj hr
        have hread : beast.read session.body_limit [] session.stream =
            (.ok message, (beast.read session.body_limit [] session.stream).2) := Prod.ext hm rfl
        simpa using (Beast.read_length hread).1
      rcases run_read services secure fuel manager hr with
        ⟨_, res, session', ⟨⟨name, rfl⟩, _⟩, hrun⟩ | ⟨_, hrun⟩
      · rw [hrun, messages, List.flatMap_cons, List.length_append, ← messages]
        have := ih ((beast.request message).answer services manager).2
          { session₁ with written := session₁.written + 1, remote_endpoint := name }
        split_ifs
        · dsimp only at this ⊢
          omega
        · simp only [messages, List.flatMap_nil, List.length_nil]
          omega
      · rw [hrun]
        exact Nat.zero_le _

theorem run_empty (services : HttpServices M) (beast : Beast) (secure : Bool) (fuel : Nat)
    (manager : M) (hc : ∀ c ∈ session.stream, c ≠ []) (hs : session.stream.flatten = []) :
    (run services beast secure (fuel + 1) manager session).1 = [] := by
  have hnil : session.stream = [] := by
    cases h : session.stream with
    | nil => rfl
    | cons c cs =>
      rw [h, List.flatten_cons] at hs
      exact absurd (List.append_eq_nil_iff.1 hs).1 (hc c (by rw [h]; exact List.mem_cons_self))
  have hread : doRead beast session = (.error .endOfStream, { session with buffer := [] }) := by
    rw [doRead, hnil]
    rfl
  exact run_readError services secure fuel manager hread

/-- Where bytes of the requests are thrown away, not all of them are answered. -/
theorem messages_ne_of_surplus (services : HttpServices M) (beast : Beast) (secure : Bool)
    (fuel : Nat) (manager : M) (hs : surplus ++ session.stream.flatten = requests.flatten)
    (hsur : surplus ≠ []) :
    (run services beast secure fuel manager session).1.map Exchange.message ≠ requests := by
  intro heq
  have hle := length_messages_le services beast secure fuel manager session
  have hpos := List.length_pos_of_ne_nil hsur
  have hlen := congrArg List.length hs
  rw [messages, List.flatMap_def, heq] at hle
  rw [List.length_append] at hlen
  omega

/-- Every request of a list can be answered in its turn; `k` writes come before it. -/
def AllAnswered (services : HttpServices M) (beast : Beast) (fate : Nat → Bool) :
    M → Nat → List Bytes → Prop
  | _, _, [] => True
  | manager, k, message :: rest =>
    (beast.request message).Quotable services manager ∧ fate k = true ∧
      AllAnswered services beast fate ((beast.request message).answer services manager).2 (k + 1)
        rest

/-- Every request ends where a chunk of the stream does. -/
def EndsAtCuts (chunks : List Bytes) (requests : List Bytes) : Prop :=
  ∀ before after, requests = before ++ after → Chunks.Cut chunks before.flatten.length

theorem endsAtCuts_cons (chunks : List Bytes) (message : Bytes) (requests : List Bytes) :
    EndsAtCuts chunks (message :: requests) ↔
      Chunks.Cut chunks message.length ∧
        EndsAtCuts (Chunks.advance message.length chunks) requests := by
  constructor
  · intro h
    refine ⟨by simpa using h [message] requests rfl, fun before after he => ?_⟩
    have hcut := h (message :: before) after (by rw [he, List.cons_append])
    rw [List.flatten_cons, List.length_append] at hcut
    rcases Nat.eq_zero_or_pos before.flatten.length with h0 | hpos
    · rw [h0]
      exact Chunks.cut_zero _
    · exact (Chunks.cut_advance hpos).2 hcut
  · rintro ⟨hfirst, hrest⟩ before after he
    cases before with
    | nil => exact Chunks.cut_zero _
    | cons b before =>
      obtain ⟨rfl, he'⟩ := List.cons.inj he
      rw [List.flatten_cons, List.length_append]
      rcases Nat.eq_zero_or_pos before.flatten.length with h0 | hpos
      · rwa [h0, Nat.add_zero]
      · exact (Chunks.cut_advance hpos).1 (hrest before after he')

/-- Each request of a stream is answered once and in order exactly when each can be answered and
ends where a chunk ends. What follows the end of a request in its chunk is thrown away. -/
theorem run_exchanges_iff (services : HttpServices M) (beast : Beast) (secure : Bool)
    (manager : M) (hs : session.stream.flatten = requests.flatten)
    (hc : ∀ c ∈ session.stream, c ≠ [])
    (hm : ∀ message ∈ requests, beast.Message session.body_limit message)
    (hf : session.stream.length < fuel) :
    (run services beast secure fuel manager session).1.map Exchange.message = requests ↔
      EndsAtCuts session.stream requests ∧ (requests ≠ [] → session.PeerKnown) ∧
        AllAnswered services beast session.fate manager session.written requests := by
  obtain ⟨fuel, rfl⟩ : ∃ k, fuel = k + 1 := ⟨fuel - 1, by omega⟩
  induction requests generalizing session manager fuel with
  | nil =>
    rw [run_empty services beast secure fuel manager hc hs]
    refine iff_of_true rfl ⟨fun before after he => ?_, fun h => absurd rfl h, trivial⟩
    rw [(List.append_eq_nil_iff.1 he.symm).1]
    exact Chunks.cut_zero _
  | cons message rest ih =>
    have hmsg := hm message List.mem_cons_self
    rcases hread : beast.read session.body_limit [] session.stream with ⟨got, surplus, chunks⟩
    have hb : message = [] ++ message := rfl
    have hspec := hmsg.read hc hb hmsg.nonempty (by rw [hs, List.flatten_cons])
    rw [hread] at hspec
    obtain ⟨hok, hrest, hne, hshort, hcut, hadv⟩ := hspec
    dsimp only at hok hrest hne hshort hcut hadv
    subst hok
    have hdo : doRead beast session =
        (.ok message, { session with buffer := surplus, stream := chunks }) := by
      rw [doRead, hread]
    rw [endsAtCuts_cons, AllAnswered, ← hcut]
    rcases run_read services secure fuel manager hdo with
      ⟨⟨hp, hq, hfate⟩, res, session', ⟨⟨name, rfl⟩, hpeer⟩, hrun⟩ | ⟨hno, hrun⟩
    · rw [hrun, if_pos hmsg.keep_alive, List.map_cons, List.cons_inj_right]
      by_cases hsur : surplus = []
      · obtain ⟨fuel, rfl⟩ : ∃ k, fuel = k + 1 := ⟨fuel - 1, by omega⟩
        subst hsur
        have hrest' : ({ session with
            buffer := [], stream := chunks, written := session.written + 1,
            remote_endpoint := name } : HttpSession).stream.flatten = rest.flatten := hrest
        rw [ih _ hrest' hne (fun m h => hm m (List.mem_cons_of_mem _ h)) fuel
          (by dsimp only; omega), ← hadv rfl]
        constructor
        · rintro ⟨hends, _, hall⟩
          exact ⟨⟨rfl, hends⟩, fun _ => hp, hq, hfate, hall⟩
        · rintro ⟨⟨_, hends⟩, _, _, _, hall⟩
          exact ⟨hends, fun _ => hpeer.2 hp, hall⟩
      · refine iff_of_false ?_ fun h => hsur h.1.1
        exact messages_ne_of_surplus services beast secure fuel _ hrest hsur
    · rw [hrun]
      refine iff_of_false (by simp) fun h => hno ?_
      exact ⟨h.2.1 (by simp), h.2.2.1, h.2.2.2.1⟩

def health : Bytes := ascii "GET /health HTTP/1.1\r\n\r\n"

def healthBeast : Beast where
  frame _ buffer := if health.isPrefixOf buffer then .done health.length else .needMore
  request _ := ⟨.get, ascii "/health", 11, true, []⟩

def receiving (chunks : List Bytes) : HttpSession where
  stream := chunks
  fate _ := true
  written := 0
  peer := .ok (ascii "127.0.0.1:50000")
  remote_endpoint := []
  body_limit := 1024
  buffer := []

theorem health_message (body_limit : Nat) : healthBeast.Message body_limit health where
  whole rest := by
    have hpre : health.isPrefixOf (health ++ rest) = true :=
      List.isPrefixOf_iff_prefix.2 (List.prefix_append _ _)
    simp only [healthBeast, hpre, if_true]
  part part rest h hne := by
    have hlt : part.length < health.length := by
      have hpos := List.length_pos_of_ne_nil hne
      rw [h, List.length_append]
      omega
    have hnot : ¬ health.isPrefixOf part = true := fun hp =>
      absurd (List.isPrefixOf_iff_prefix.1 hp).length_le (not_le.2 hlt)
    simp only [healthBeast, if_neg hnot]
  nonempty := by decide
  keep_alive := rfl

theorem health_quotable (message : Bytes) :
    (healthBeast.request message).Quotable literalServices () where
  token h := absurd h (show ¬ HttpRequest.parsesBody ⟨.get, ascii "/health", 11, true, []⟩ = true
    by decide)
  what task ht := by
    have hnone : (healthBeast.request message).task literalServices.json = none := by rfl
    rw [hnone] at ht
    cases ht

theorem run_exchanges_iff_health :
    (run literalServices healthBeast false 3 () (receiving [health, health])).1.map
      Exchange.message = [health, health] := by
  refine (run_exchanges_iff literalServices healthBeast false () (by decide) (by decide)
    (fun message h => ?_) (by decide)).2 ⟨?_, fun _ => .inr ⟨_, rfl⟩,
      health_quotable _, rfl, health_quotable _, rfl, trivial⟩
  · obtain rfl : message = health := by simpa using h
    exact health_message _
  · have hadv : Chunks.advance health.length [health, health] = [health] := by decide
    have hadv' : Chunks.advance health.length [health] = [] := by decide
    rw [show (receiving [health, health]).stream = [health, health] from rfl, endsAtCuts_cons, hadv,
      endsAtCuts_cons, hadv']
    refine ⟨⟨1, by decide⟩, ⟨1, by decide⟩, fun before after he => ?_⟩
    rw [(List.append_eq_nil_iff.1 he.symm).1]
    exact Chunks.cut_zero _

/-- Of two requests in one chunk, the second is never answered. -/
theorem run_drops_pipelined :
    ∃ requests chunks, chunks.flatten = requests.flatten ∧ (∀ c ∈ chunks, c ≠ []) ∧
      (∀ message ∈ requests, healthBeast.Message 1024 message) ∧ ∀ secure,
      (run literalServices healthBeast secure 2 () (receiving chunks)).1.map Exchange.message ≠
        requests := by
  refine ⟨[health, health], [health ++ health], by decide, by decide, fun message h => ?_,
    by decide⟩
  obtain rfl : message = health := by simpa using h
  exact health_message _

end HttpSession
end OnnxruntimeServer
