import OnnxruntimeServer.TcpResponse
import OnnxruntimeServer.HttpSession

namespace OnnxruntimeServer
set_option autoImplicit true

/-- The syntax error that ends the parsing of a body, unless the body is nested too deeply first. -/
def parseError (lib : JsonLibrary) (body : Bytes) : Option ParseError :=
  if (lib.parse body).depths.any (MAX_JSON_NESTING_DEPTH < ·) then none
  else match (lib.parse body).result with
    | .ok _ => none
    | .error e => some e

theorem parseRequestJson_error (h : parseRequestJson lib body = .error e) :
    isText e.what = true ∧ parseError lib body = none ∨
      ∃ p, parseError lib body = some p ∧ e = p.exception := by
  rw [parseRequestJson] at h
  rw [parseError]
  split_ifs at h ⊢
  · obtain rfl := Except.error.inj h
    exact .inl ⟨isText_what (by decide) _, rfl⟩
  · cases hr : (lib.parse body).result with
    | ok j =>
      rw [hr] at h
      cases h
    | error p =>
      rw [hr] at h
      exact .inr ⟨p, rfl, (Except.error.inj h).symm⟩

theorem parseError_of_ok (h : parseRequestJson lib body = .ok j) : parseError lib body = none := by
  rw [parseRequestJson] at h
  rw [parseError]
  split_ifs at h ⊢
  cases hr : (lib.parse body).result with
  | ok j => rfl
  | error p =>
    rw [hr] at h
    cases h

theorem isText_sessionTask (h : sessionTask j = .error e) : isText e.what = true := by
  rw [sessionTask] at h
  split at h
  · cases h
  · obtain rfl := Except.error.inj h
    exact isText_what (by decide) _

theorem isText_createSession (h : createSession j post = .error e) : isText e.what = true := by
  rcases bind_eq_error.1 h with hs | ⟨key, _, h⟩
  · exact isText_sessionTask hs
  · cases h

theorem isText_executeSession (h : executeSession j = .error e) : isText e.what = true := by
  rcases bind_eq_error.1 h with hs | ⟨key, _, h⟩
  · exact isText_sessionTask hs
  · dsimp only at h
    split at h
    · cases h
    · obtain rfl := Except.error.inj h
      exact isText_what (by decide) _

theorem isText_createTask (h : createTask type j post = .error e) : isText e.what = true := by
  rw [createTask] at h
  split_ifs at h
  · exact isText_executeSession h
  · rcases bind_eq_error.1 h with hs | ⟨key, _, h⟩
    · exact isText_sessionTask hs
    · cases h
  · exact isText_createSession h
  · rcases bind_eq_error.1 h with hs | ⟨key, _, h⟩
    · exact isText_sessionTask hs
    · cases h
  · obtain rfl := Except.error.inj h
    exact isText_what (by decide) _

theorem whatToJson_kind (kind : ErrorKind) (what : Bytes) :
    (∃ t, whatToJson kind.type what = .ok t) ↔ validUtf8 what = true := by
  rw [whatToJson_ok, and_iff_left (validUtf8_text kind.type_text)]

namespace TcpSession

variable {session : TcpSession} {header : ProtocolHeader}

/-- The session knows its peer, or can still ask for it. -/
def PeerKnown (session : TcpSession) : Prop :=
  session.remote_endpoint ≠ [] ∨ ∃ peer, session.socket.peer = .ok peer

theorem peerKnown_iff : session.PeerKnown ↔ ∃ session', session.getRemoteEndpoint = .ok session' := by
  rw [PeerKnown, getRemoteEndpoint]
  by_cases h : session.remote_endpoint = []
  · simp only [h, ne_eq, not_true_eq_false, false_or, if_false]
    cases session.socket.peer <;> simp
  · simp [h]

theorem peerKnown_after {session' : TcpSession} (h : session.getRemoteEndpoint = .ok session') :
    session'.PeerKnown := by
  rw [getRemoteEndpoint] at h
  split at h
  · rename_i hne
    rw [← Except.ok.inj h]
    exact .inl hne
  · split at h
    · cases h
    · rename_i peer hpeer
      rw [← Except.ok.inj h]
      exact .inr ⟨peer, hpeer⟩

/-- No text that would have to be quoted in an error reply is broken UTF-8. -/
structure Quotable (services : Services M) (manager : M) (header : ProtocolHeader)
    (session : TcpSession) : Prop where
  token : 0 < header.json_length → ∀ p,
    parseError services.json (session.buffer.take header.json_length.toInt.toNat) = some p →
      validUtf8 p.token = true
  what : ∀ task, session.requestTask services.json header = .ok task → ∀ e,
    (services.run manager task).2 = .error e → validUtf8 e.what = true

theorem bodyJson_error (h : session.bodyJson lib header = .error e) :
    isText e.what = true ∧ (0 < header.json_length →
        parseError lib (session.buffer.take header.json_length.toInt.toNat) = none) ∨
      0 < header.json_length ∧ ∃ p,
        parseError lib (session.buffer.take header.json_length.toInt.toNat) = some p ∧
          e = p.exception := by
  rw [bodyJson] at h
  split_ifs at h with hpos
  rcases parseRequestJson_error h with ⟨ht, hn⟩ | hq
  · exact .inl ⟨ht, fun _ => hn⟩
  · exact .inr ⟨hpos, hq⟩

theorem bodyJson_ok (h : session.bodyJson lib header = .ok json) (hpos : 0 < header.json_length) :
    parseError lib (session.buffer.take header.json_length.toInt.toNat) = none := by
  rw [bodyJson, if_pos hpos] at h
  exact parseError_of_ok h

theorem isText_assignPath (h : session.assignPath json = .error e) : isText e.what = true := by
  rcases bind_eq_error.1 h with ha | ⟨option, _, ha⟩
  · exact Json.isText_assign ha
  · exact Json.isText_assign ha

/-- Of the body, only the token of a syntax error gets into the exceptions of making a task. -/
theorem requestTask_error (h : session.requestTask lib header = .error e) :
    isText e.what = true ∧ (0 < header.json_length →
        parseError lib (session.buffer.take header.json_length.toInt.toNat) = none) ∨
      0 < header.json_length ∧ ∃ p,
        parseError lib (session.buffer.take header.json_length.toInt.toNat) = some p ∧
          e = p.exception := by
  rcases bind_eq_error.1 h with hj | ⟨json, hj, hc⟩
  · rcases bind_eq_error.1 hj with hb | ⟨body, hb, ha⟩
    · exact bodyJson_error hb
    · by_cases hu : session.uploaded_model_path ≠ []
      · rw [if_pos hu] at ha
        exact .inl ⟨isText_assignPath ha, bodyJson_ok hb⟩
      · rw [if_neg hu] at ha
        cases ha
  · rw [requestJson] at hj
    cases hb : session.bodyJson lib header with
    | error e' =>
      rw [hb] at hj
      cases hj
    | ok body => exact .inl ⟨isText_createTask hc, bodyJson_ok hb⟩

theorem requestTask_ok (h : session.requestTask lib header = .ok task)
    (hpos : 0 < header.json_length) :
    parseError lib (session.buffer.take header.json_length.toInt.toNat) = none := by
  rw [requestTask, requestJson] at h
  cases hb : session.bodyJson lib header with
  | error e =>
    rw [hb] at h
    cases h
  | ok body => exact bodyJson_ok hb hpos

theorem quotable_of_task (services : Services M) (manager : M)
    (ht : session.requestTask services.json header = .ok task) :
    session.Quotable services manager header ↔
      ∀ e, (services.run manager task).2 = .error e → validUtf8 e.what = true := by
  constructor
  · exact fun h => h.what task ht
  · refine fun h => ⟨fun hpos p hp => ?_, fun task' ht' => ?_⟩
    · rw [requestTask_ok ht hpos] at hp
      cases hp
    · obtain rfl : task = task' := Except.ok.inj (ht.symm.trans ht')
      exact h

theorem quotable_of_error (services : Services M) (manager : M)
    (ht : session.requestTask services.json header = .error e) :
    validUtf8 e.what = true ↔ session.Quotable services manager header := by
  have htask : ∀ task, session.requestTask services.json header = .ok task → ∀ e,
      (services.run manager task).2 = .error e → validUtf8 e.what = true := by
    intro task h
    rw [ht] at h
    cases h
  rcases requestTask_error ht with ⟨htext, hnone⟩ | ⟨hpos, p, hp, rfl⟩
  · refine ⟨fun _ => ⟨fun hpos p hp => ?_, htask⟩, fun _ => validUtf8_text htext⟩
    rw [hnone hpos] at hp
    cases hp
  · rw [p.validUtf8_what]
    refine ⟨fun hv => ⟨fun _ q hq => ?_, htask⟩, fun h => h.token hpos p hp⟩
    rwa [← Option.some.inj (hp.symm.trans hq)]

/-- A round before its response is built: it has the text of a result, which needs the peer's name,
or an exception, whose text can be quoted exactly when nothing broken is quoted in it. -/
theorem answer_cases (services : Services M) (manager : M) (header : ProtocolHeader)
    (session : TcpSession) :
    (∃ text manager' session', session.answer services manager header =
        (.ok text, manager', session') ∧ session'.socket = session.socket ∧ session.PeerKnown ∧
        session.Quotable services manager header) ∨
      ∃ e manager' session', session.answer services manager header =
        (.error e, manager', session') ∧ session'.socket = session.socket ∧
        (session'.PeerKnown ↔ session.PeerKnown) ∧ (session.PeerKnown →
          (validUtf8 e.what = true ↔ session.Quotable services manager header)) := by
  rw [answer]
  cases ht : session.requestTask services.json header with
  | error e =>
    exact .inr ⟨e, manager, session, rfl, rfl, Iff.rfl, fun _ => quotable_of_error _ _ ht⟩
  | ok task =>
    have hq := quotable_of_task services manager ht
    dsimp only
    rcases hr : services.run manager task with ⟨manager', e | result⟩
    · rw [hr] at hq
      refine .inr ⟨e, manager', session, rfl, rfl, Iff.rfl, fun _ => ?_⟩
      simp only [hq, Except.error.injEq, forall_eq']
    · rw [hr] at hq
      have hquot : session.Quotable services manager header := hq.2 (by simp)
      dsimp only
      cases he : session.getRemoteEndpoint with
      | error e =>
        refine .inr ⟨e, manager', session, rfl, rfl, Iff.rfl, fun hp => ?_⟩
        obtain ⟨session', hs⟩ := peerKnown_iff.1 hp
        rw [he] at hs
        cases hs
      | ok session' =>
        have hp : session.PeerKnown := peerKnown_iff.2 ⟨session', he⟩
        have hs := socket_getRemoteEndpoint he
        dsimp only
        cases hd : result.dump services.json.dumpFloat with
        | ok text => exact .inl ⟨text, manager', session', rfl, hs, hp, hquot⟩
        | error e =>
          exact .inr ⟨e, manager', session', rfl, hs, iff_of_true (peerKnown_after he) hp, fun _ =>
            iff_of_true (validUtf8_text (Json.isText_dump hd)) hquot⟩

/-- Exactly one response is written, and no exception leaves the round. -/
def Responds (services : Services M) (manager : M) (header : ProtocolHeader)
    (session : TcpSession) : Prop :=
  (∀ e, (session.serve services manager header).1 ≠ .escaped e) ∧
    ∃ (response : Response) (sent : Nat),
      (session.serve services manager header).2.2.socket.writes =
        session.socket.writes ++ [(response.bytes, sent)]

theorem responds_iff (services : Services M) (manager : M) (header : ProtocolHeader)
    (session : TcpSession) :
    session.Responds services manager header ↔
      session.PeerKnown ∧ session.Quotable services manager header := by
  rw [Responds, serve]
  rcases answer_cases services manager header session with
    ⟨text, manager', session', ha, hs, hp, hq⟩ | ⟨e, manager', session', ha, hs, hpeer, hq⟩
  · obtain ⟨response, sent, hw⟩ := doWrite_writes header.type text session'
    rw [hs] at hw
    rw [ha]
    dsimp only
    rcases hd : session'.doWrite (resHeader header.type text.length) text with ⟨_ | _, session₁⟩
    · rw [hd] at hw
      exact iff_of_true ⟨by simp, response, sent, hw⟩ ⟨hp, hq⟩
    · rw [hd] at hw
      exact iff_of_true ⟨by simp, response, sent, hw⟩ ⟨hp, hq⟩
  · rw [ha]
    dsimp only
    cases he : session'.getRemoteEndpoint with
    | error e' =>
      refine iff_of_false (fun h => h.1 e' rfl) fun h => ?_
      obtain ⟨session₁, hok⟩ := peerKnown_iff.1 (hpeer.2 h.1)
      rw [he] at hok
      cases hok
    | ok session₁ =>
      have hp := hpeer.1 (peerKnown_iff.2 ⟨session₁, he⟩)
      have hs₁ := socket_getRemoteEndpoint he
      rw [← hq hp, ← whatToJson_kind e.kind, and_iff_right hp]
      dsimp only
      rw [sendError]
      cases hw : whatToJson e.kind.type e.what with
      | error e' => exact iff_of_false (fun h => h.1 e' rfl) (by simp)
      | ok text =>
        obtain ⟨response, sent, hwrites⟩ := doWrite_writes (-1) text session₁
        rw [hs₁, hs] at hwrites
        exact iff_of_true ⟨by simp [bind, Except.bind], response, sent, hwrites⟩ ⟨text, rfl⟩

end TcpSession

namespace HttpRequest

/-- The requests whose body is parsed. -/
def parsesBody (req : HttpRequest) : Bool :=
  req.method = .post && ((sessionTarget req.target).isSome || req.target = ascii "/api/sessions")

/-- No text that would have to be quoted in an error reply is broken UTF-8. -/
structure Quotable (services : HttpServices M) (manager : M) (req : HttpRequest) : Prop where
  token : req.parsesBody = true → ∀ p, parseError services.json req.body = some p →
    validUtf8 p.token = true
  what : ∀ task, req.task services.json = some (.ok task) → ∀ e,
    (services.run manager task).2 = .error e → validUtf8 e.what = true

/-- The request is answered with an error: its task cannot be made, or fails, or has a result that
cannot be serialised. -/
def Fails (services : HttpServices M) (manager : M) (req : HttpRequest) : Prop :=
  match req.task services.json with
  | none => False
  | some (.error _) => True
  | some (.ok task) => ∀ result, (services.run manager task).2 = .ok result →
    ∀ text, result.dump services.json.dumpFloat ≠ .ok text

variable {req : HttpRequest}

/-- A task is made from the parsed body, by a constructor whose errors quote nothing, or from the
target alone, which cannot fail. -/
theorem task_cases (req : HttpRequest) :
    (req.parsesBody = true ∧ ∃ make : Json → Except Exception Task,
        (∀ j e, make j = .error e → isText e.what = true) ∧
        ∀ lib, req.task lib = some (parseRequestJson lib req.body >>= make)) ∨
      req.parsesBody = false ∧ ∀ lib e, req.task lib ≠ some (.error e) := by
  simp only [parsesBody, task]
  cases hm : req.method with
  | post =>
    cases ht : sessionTarget req.target with
    | some key => exact .inl ⟨by simp, fun j => .ok (.executeSession key.1 key.2 j),
        fun j e h => by (cases h), fun lib => rfl⟩
    | none =>
      by_cases hl : req.target = ascii "/api/sessions"
      · exact .inl ⟨by simp [hl], fun j => createSession j none,
          fun j e h => isText_createSession h, fun lib => by simp [hl]⟩
      · exact .inr ⟨by simp [hl], fun lib e => by simp [hl]⟩
  | _ =>
    refine .inr ⟨by simp, fun lib e => ?_⟩
    cases ht : sessionTarget req.target <;> simp

theorem parseError_of_task (h : ∀ e, req.task lib ≠ some (.error e)) (hp : req.parsesBody = true) :
    parseError lib req.body = none := by
  rcases task_cases req with ⟨_, make, _, ht⟩ | ⟨hn, _⟩
  · cases hj : parseRequestJson lib req.body with
    | ok j => exact parseError_of_ok hj
    | error e => exact absurd (by rw [ht, hj]; rfl) (h e)
  · rw [hn] at hp
    cases hp

theorem quotable_of_noError (services : HttpServices M) (manager : M)
    (h : ∀ e, req.task services.json ≠ some (.error e)) :
    req.Quotable services manager ↔ ∀ task, req.task services.json = some (.ok task) → ∀ e,
      (services.run manager task).2 = .error e → validUtf8 e.what = true := by
  refine ⟨Quotable.what, fun hw => ⟨fun hp p hq => ?_, hw⟩⟩
  rw [parseError_of_task h hp] at hq
  cases hq

theorem quotable_of_error (services : HttpServices M) (manager : M)
    (h : req.task services.json = some (.error e)) :
    validUtf8 e.what = true ↔ req.Quotable services manager := by
  have htask : ∀ task, req.task services.json = some (.ok task) → ∀ e,
      (services.run manager task).2 = .error e → validUtf8 e.what = true := by
    intro task ht
    rw [h] at ht
    cases ht
  rcases task_cases req with ⟨hp, make, hmake, ht⟩ | ⟨_, hn⟩
  · rw [ht] at h
    rcases bind_eq_error.1 (Option.some.inj h) with hj | ⟨j, hj, hm⟩
    · rcases parseRequestJson_error hj with ⟨htext, hnone⟩ | ⟨p, hsome, rfl⟩
      · refine iff_of_true (validUtf8_text htext) ⟨fun _ p hq => ?_, htask⟩
        rw [hnone] at hq
        cases hq
      · rw [p.validUtf8_what]
        refine ⟨fun hv => ⟨fun _ q hq => ?_, htask⟩, fun hq => hq.token hp p hsome⟩
        rwa [← Option.some.inj (hsome.symm.trans hq)]
    · refine iff_of_true (validUtf8_text (hmake j e hm)) ⟨fun _ p hq => ?_, htask⟩
      rw [parseError_of_ok hj] at hq
      cases hq
  · exact absurd h (hn _ e)

theorem answer_cases (services : HttpServices M) (manager : M) (req : HttpRequest) :
    (∃ res manager', req.answer services manager = (.ok res, manager') ∧
        ¬ req.Fails services manager ∧ req.Quotable services manager) ∨
      ∃ e manager', req.answer services manager = (.error e, manager') ∧
        req.Fails services manager ∧
        (validUtf8 e.what = true ↔ req.Quotable services manager) := by
  rw [answer, Fails]
  rcases ht : req.task services.json with _ | e | task
  · exact .inl ⟨_, manager, rfl, not_false, (quotable_of_noError services manager
      (by simp [ht])).2 (by simp [ht])⟩
  · exact .inr ⟨e, manager, rfl, trivial, quotable_of_error services manager ht⟩
  · have hq : req.Quotable services manager ↔ _ :=
      quotable_of_noError services manager (by simp [ht])
    simp only [ht, Option.some.injEq, Except.ok.injEq, forall_eq'] at hq
    dsimp only
    rcases hr : services.run manager task with ⟨manager', e | result⟩
    · rw [hr] at hq
      simp only [Except.error.injEq, forall_eq'] at hq
      exact .inr ⟨e, manager', rfl, by simp, hq.symm⟩
    · rw [hr] at hq
      have hquot : req.Quotable services manager := hq.2 (by simp)
      dsimp only
      cases hd : result.dump services.json.dumpFloat with
      | ok text => exact .inl ⟨_, manager', rfl, by simp [hd], hquot⟩
      | error e =>
        exact .inr ⟨e, manager', rfl, by simp [hd],
          iff_of_true (validUtf8_text (Json.isText_dump hd)) hquot⟩

end HttpRequest

namespace HttpSession

variable {session : HttpSession}

/-- The session knows its peer, or can still ask for it. -/
def PeerKnown (session : HttpSession) : Prop :=
  session.remote_endpoint ≠ [] ∨ ∃ peer, session.peer = .ok peer

theorem peerKnown_iff : session.PeerKnown ↔ ∃ session', session.getRemoteEndpoint = .ok session' := by
  rw [PeerKnown, getRemoteEndpoint]
  by_cases h : session.remote_endpoint = []
  · simp only [h, ne_eq, not_true_eq_false, false_or, if_false]
    cases session.peer <;> simp
  · simp [h]

theorem handleRequest_iff (services : HttpServices M) (manager : M) (req : HttpRequest)
    (session : HttpSession) :
    (∃ res, (session.handleRequest services manager req).1 = .ok res) ↔
      req.Quotable services manager ∧ (req.Fails services manager → session.PeerKnown) := by
  rw [handleRequest]
  rcases HttpRequest.answer_cases services manager req with
    ⟨res, manager', ha, hf, hq⟩ | ⟨e, manager', ha, hf, hq⟩
  · rw [ha]
    exact iff_of_true ⟨res, rfl⟩ ⟨hq, fun h => absurd h hf⟩
  · rw [ha, ← hq, forall_prop_of_true hf, peerKnown_iff]
    dsimp only
    cases he : session.getRemoteEndpoint with
    | error e' => simp
    | ok session' =>
      have hw := whatToJson_kind e.kind e.what
      dsimp only
      cases ht : whatToJson e.kind.type e.what with
      | error e' => simpa [ht, bind, Except.bind] using hw
      | ok text => simpa [ht, bind, Except.bind] using hw

end HttpSession

/-- Exactly one response to a request that was read: over TCP it takes a peer whose address can be
told, and over HTTP that too once an error is to be reported. For both, neither the token of a syntax
error nor the text of a task's exception may be broken UTF-8. -/
theorem one_response_iff (services : HttpServices M) (manager : M) :
    (∀ (header : ProtocolHeader) (session : TcpSession),
      session.Responds services.toServices manager header ↔
        session.PeerKnown ∧ session.Quotable services.toServices manager header) ∧
    ∀ (req : HttpRequest) (session : HttpSession),
      (∃ res, (session.handleRequest services manager req).1 = .ok res) ↔
        req.Quotable services manager ∧ (req.Fails services manager → session.PeerKnown) :=
  ⟨TcpSession.responds_iff services.toServices manager,
    HttpSession.handleRequest_iff services manager⟩

/-- The error that ends the parsing of a body whose first character is the two-byte letter `é`. The
lexer stops at the first byte of it. -/
def literalError : ParseError where
  head := ascii ("[json.exception.parse_error.101] parse error at line 1, column 1: " ++
    "syntax error while parsing value - invalid literal; last read: \x27")
  token := [0xC3]
  tail := ascii "\x27"
  head_text := by decide +kernel
  tail_text := by decide

def literalServices : HttpServices Unit where
  json := ⟨fun _ => ⟨[], .error literalError⟩, fun _ => []⟩
  run manager _ := (manager, .ok .null)
  swagger := ⟨[], [], []⟩
  version := ascii "1.27.0"

/-- Such a body gets no response on either transport. -/
theorem no_response :
    (∃ (header : ProtocolHeader) (session : TcpSession),
      session.buffer = [0xC3, 0xA9] ∧
        ¬ session.Responds literalServices.toServices () header) ∧
    ∃ (req : HttpRequest) (session : HttpSession), req.body = [0xC3, 0xA9] ∧
      ¬ ∃ res, (session.handleRequest literalServices () req).1 = .ok res := by
  refine ⟨⟨⟨Task.GET_SESSION, 2, 2, 0⟩,
    { TcpSession.reading [] with buffer := [0xC3, 0xA9] }, rfl, fun h => ?_⟩,
    ⟨.post, ascii "/api/sessions", 11, true, [0xC3, 0xA9]⟩,
    ⟨[], fun _ => true, 0, .ok (ascii "127.0.0.1:50000"), [], 1024, []⟩, rfl, fun h => ?_⟩
  · have hv := ((TcpSession.responds_iff _ _ _ _).1 h).2.token (by decide) literalError rfl
    exact absurd hv (by decide)
  · have hv := ((HttpSession.handleRequest_iff _ _ _ _).1 h).1.token (by decide) literalError rfl
    exact absurd hv (by decide)

end OnnxruntimeServer
