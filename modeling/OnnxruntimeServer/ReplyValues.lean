import OnnxruntimeServer.PlainResults
import OnnxruntimeServer.TransportRuns

namespace OnnxruntimeServer
set_option autoImplicit true
open Transition

def Exception.json (e : Exception) : Json :=
  .object [(ascii "error", .string e.what), (ascii "error_type", .string e.kind.type)]

theorem Exception.json_plain (e : Exception) (p : Double → Prop) :
    e.json.KeysSorted ∧ e.json.AllFloats p ∧ e.json.reread = e.json := by
  refine ⟨⟨?_, trivial, trivial, trivial⟩, ⟨trivial, trivial, trivial⟩, rfl⟩
  apply List.pairwise_cons.2 ⟨?_, List.pairwise_singleton _ _⟩
  intro e' he
  obtain rfl := List.mem_singleton.1 he
  change ascii "error" < ascii "error_type"
  decide

theorem parse_whatToJson {e : Exception} (strtod : Bytes → Double)
    (h : whatToJson e.kind.type e.what = .ok text) :
    (Json.parse strtod text).result = .ok e.json := by
  obtain ⟨hsorted, hfloats, hreread⟩ := e.json_plain (Json.Printed strtod fun _ => [])
  have hdump : e.json.dump (Json.dumpNumber fun _ => []) = .ok text := h
  rw [Json.parse_of_dump hsorted hfloats hdump, hreread]

/-- What an operation comes to: the value that a client reads, or the error, also when it is in the
printing of the value. -/
def Operation.outcome (services : Services M) (manager : M) (op : Operation) :
    Except Exception Json := do
  let value ← (services.run manager op.task).2
  let _ ← value.dump services.json.dumpFloat
  .ok value.reread

def outcomes (services : Services M) : M → List Operation → List (Except Exception Json)
  | _, [] => []
  | manager, op :: ops =>
    op.outcome services manager :: outcomes services (services.run manager op.task).1 ops

/-- The answer holds the outcome, as the client's parser reads it. An error whose message is not
UTF-8 has no answer. -/
def Tells (strtod : Bytes → Double) (answer : Except Exception Answer) :
    Except Exception Json → Prop
  | .ok value => ∃ text, answer = .ok ⟨true, text⟩ ∧ (Json.parse strtod text).result = .ok value
  | .error e =>
    (∃ text, answer = .ok ⟨false, text⟩ ∧ (Json.parse strtod text).result = .ok e.json) ∨
      validUtf8 e.what = false ∧ ∃ e', answer = .error e'

variable {strtod : Bytes → Double} {to_chars : Double → Bytes}

theorem tells_error (strtod : Bytes → Double) (e : Exception) :
    Tells strtod ((whatToJson e.kind.type e.what).map (Answer.mk false)) (.error e) := by
  cases h : whatToJson e.kind.type e.what with
  | ok text => exact .inl ⟨text, rfl, parse_whatToJson strtod h⟩
  | error e' =>
    refine .inr ⟨?_, e', rfl⟩
    rw [← Bool.not_eq_true, ← whatToJson_kind e.kind e.what]
    rintro ⟨text, htext⟩
    rw [htext] at h
    cases h

theorem Operation.tells_answer (op : Operation) (services : Services M)
    (hj : services.json = Json.library strtod to_chars) (manager : M)
    (hr : ∀ value, (services.run manager op.task).2 = .ok value →
      value.Plain (Json.Printed strtod to_chars)) :
    Tells strtod (op.answer services manager).1 (op.outcome services manager) := by
  rw [Operation.answer, Operation.outcome, hj]
  rcases hrun : services.run manager op.task with ⟨manager', e | value⟩
  · exact tells_error strtod e
  · have hplain := hr value (by rw [hrun])
    cases hdump : value.dump (Json.dumpNumber to_chars) with
    | error e =>
      simp only [Except.bind, Json.library, hdump, bind]
      exact tells_error strtod e
    | ok text =>
      simp only [Except.bind, Json.library, hdump, bind]
      exact ⟨text, rfl, Json.parse_of_dump hplain.sorted hplain.floats hdump⟩

theorem Operation.answer_manager (services : Services M) (manager : M) (op : Operation) :
    (op.answer services manager).2 = (services.run manager op.task).1 := by
  rw [Operation.answer]
  rcases services.run manager op.task with ⟨manager', result⟩
  dsimp only
  cases result.bind (Json.dump services.json.dumpFloat) <;> rfl

theorem Asks.received (h : Asks lib op arrival) : Received lib op.task := by
  cases arrival with
  | tcp frame => exact .tcp frame [] (h.task_tcp [])
  | http req => exact .http req h.task_http

theorem Manager.showsPlain_of_reachable {p : Double → Prop} {env : OrtEnv} {manager : Manager}
    (h : Reachable (Prepared (Json.library strtod to_chars) env)
      (Receives (Json.library strtod to_chars) env) manager) : manager.ShowsPlain p := by
  refine h.invariant (fun _ => Prepared.showsPlain) ?_
  intro before after _ hplain hreceives
  obtain ⟨rt, task, hreceived, rfl⟩ := hreceives
  exact hplain.run hreceived.sorted

/-- In every state of the server, whoever asks for the operations and over whichever transport, each
answer is one of JSON that the client's parser reads as what the operation came to. -/
theorem answers_tell {env : OrtEnv} {rt : Runtime} {manager : Manager}
    (hrt : rt.Answers (Json.Printed strtod to_chars))
    (hm : Reachable (Manager.Prepared (Json.library strtod to_chars) env)
      (Manager.Receives (Json.library strtod to_chars) env) manager)
    (swagger : SwaggerServe) (version : Bytes) {session : HttpSession} (hp : session.PeerKnown)
    (h : List.Forall₂ (Asks (Json.library strtod to_chars)) ops arrivals) :
    List.Forall₂ (Tells strtod)
      (answers (Arrival.answer (Manager.httpServices (Json.library strtod to_chars) swagger version
        (rt.withOrt (Json.dumpNumber to_chars) env)) session) manager arrivals).1
      (outcomes (Manager.services (Json.library strtod to_chars)
        (rt.withOrt (Json.dumpNumber to_chars) env)) manager ops) := by
  have hplain : manager.ShowsPlain (Json.Printed strtod to_chars) :=
    Manager.showsPlain_of_reachable hm
  clear hm
  induction h generalizing manager with
  | nil => exact .nil
  | @cons op arrival ops arrivals hop _ ih =>
    have hsorted : op.task.Sorted := hop.received.sorted
    have hfirst : Arrival.answer (Manager.httpServices (Json.library strtod to_chars) swagger version
        (rt.withOrt (Json.dumpNumber to_chars) env)) session manager arrival =
        op.answer (Manager.services (Json.library strtod to_chars)
          (rt.withOrt (Json.dumpNumber to_chars) env)) manager := by
      cases arrival with
      | tcp frame => exact hop.answer_tcp _ rfl session manager
      | http req => exact hop.answer_http _ rfl hp manager
    have htells := op.tells_answer (Manager.services (Json.library strtod to_chars)
      (rt.withOrt (Json.dumpNumber to_chars) env)) rfl manager
      fun _ => Manager.plain_run hplain hsorted hrt
    rw [answers, outcomes]
    simp only [hfirst, op.answer_manager]
    exact .cons htells (ih (hplain.run hsorted))

def halfOutputs : List ValueInfo := [⟨ascii "y", .float, [1], []⟩]

def halfOrt : OrtEnv where
  api := ⟨fun _ => true, fun _ => none, false, none⟩
  openData _ _ := .ok ⟨0, [], halfOutputs⟩
  openPath _ _ := .ok ⟨0, [], halfOutputs⟩

def halfRuntime : Runtime :=
  { exampleRuntime with
    ort := fun ort_session _ _ _ =>
      if ort_session.outputs = halfOutputs then
        .ok [⟨[1], fun _ => 0, fun _ => 0, fun _ => 0, fun _ => Json.oneAndHalf, fun _ => false,
          fun _ => []⟩]
      else .error [] }

theorem answers_half :
    halfRuntime.Answers (Json.Printed (fun _ => Json.oneAndHalf) fun _ => ascii "1.5") := by
  constructor
  · intro ort_session names values asked tensors hort i info tensor hinfo htensor v hv
    by_cases houtputs : ort_session.outputs = halfOutputs
    · obtain rfl := Except.ok.inj ((if_pos houtputs).symm.trans hort)
      rw [houtputs] at hinfo
      obtain rfl := List.mem_singleton.1 (List.mem_of_getElem? hinfo)
      obtain rfl := List.mem_singleton.1 (List.mem_of_getElem? htensor)
      obtain rfl := List.mem_singleton.1 hv
      exact Json.printed_oneAndHalf
    · cases (if_neg houtputs).symm.trans hort
  · intro value h
    obtain rfl := Except.ok.inj h
    exact Json.plain_null

def createRequest : HttpRequest := ⟨.post, ascii "/api/sessions", 11, true, Json.namesBody⟩

def executeRequest : HttpRequest :=
  ⟨.post, Session.exampleKey.target, 11, true, ascii "\x7b\x7d"⟩

def shownHalf (count : UInt64) : Json :=
  .object [
    (ascii "created_at", .unsigned 0),
    (ascii "execution_count", .unsigned count),
    (ascii "inputs", .object []),
    (ascii "last_executed_at", .unsigned 0),
    (ascii "model", .string (ascii "m")),
    (ascii "option", .object [(ascii "cuda", .boolean false)]),
    (ascii "outputs", .object [(ascii "y", .string (ascii "float32[1]"))]),
    (ascii "version", .string (ascii "1"))]

theorem answers_tell_half :
    List.Forall₂ (Tells fun _ => Json.oneAndHalf)
      (answers (Arrival.answer (Manager.httpServices
          (Json.library (fun _ => Json.oneAndHalf) fun _ => ascii "1.5") ⟨[], [], []⟩ []
          (halfRuntime.withOrt (Json.dumpNumber fun _ => ascii "1.5") halfOrt)) knownPeer)
        (Manager.empty Heap.empty) [.http createRequest, .http executeRequest, .tcp getFrame,
          .http destroyRequest, .tcp getFrame]).1
      [.ok (shownHalf 0), .ok (.object [(ascii "y", .array [.float Json.oneAndHalf])]),
        .ok (shownHalf 1), .ok (.boolean true), .error notFoundError] := by
  have hstart : Manager.Prepared (Json.library (fun _ => Json.oneAndHalf) fun _ => ascii "1.5")
      halfOrt (Manager.empty Heap.empty) := ⟨fun _ => halfRuntime, [], Heap.empty, rfl⟩
  have hcreate : Asks (Json.library (fun _ => Json.oneAndHalf) fun _ => ascii "1.5")
      (.create Session.exampleKey (.object []) rfl) (.http createRequest) :=
    .httpCreate rfl rfl (Json.parse_namesBody _ _) ⟨⟨rfl, rfl⟩, rfl⟩
  have hexecute : Asks (Json.library (fun _ => Json.oneAndHalf) fun _ => ascii "1.5")
      (.execute Session.exampleKey (.object []) rfl) (.http executeRequest) :=
    .httpExecute rfl rfl (by decide) (Json.parse_emptyBody _ _)
  exact answers_tell answers_half (.start hstart) ⟨[], [], []⟩ [] (.inr ⟨_, rfl⟩)
    (.cons hcreate (.cons hexecute (.cons (asks_getFrame _ _)
      (.cons (asks_destroyRequest _) (.cons (asks_getFrame _ _) .nil)))))

end OnnxruntimeServer
