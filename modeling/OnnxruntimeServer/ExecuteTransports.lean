import OnnxruntimeServer.JsonRoundTrip

namespace OnnxruntimeServer
set_option autoImplicit true

/-- A request that has been made a task, or the exception of making it. -/
def Services.handle (services : Services M) (manager : M) :
    Except Exception Task → M × Except Exception Json
  | .error e => (manager, .error e)
  | .ok task => services.run manager task

def executeBody (model_name model_version : Bytes) (data : Json) : Json :=
  .object [(ascii "data", data), (ascii "model", .string model_name),
    (ascii "version", .string model_version)]

def SameOutcome : Except Exception Json → Except Exception Json → Prop
  | .ok result, .ok result' => result = result'
  | .error e, .error e' => e.kind.type = e'.kind.type
  | _, _ => False

/-- Two requests on one manager come to the same, also in what they count. -/
structure Agree (a b : Manager × Except Exception Json) : Prop where
  outcome : SameOutcome a.2 b.2
  count : ∀ key, (a.1.sessions.find key).map Session.execution_count =
    (b.1.sessions.find key).map Session.execution_count

theorem Agree.refl (a : Manager × Except Exception Json) : Agree a a := by
  refine ⟨?_, fun _ => rfl⟩
  cases a.2 <;> rfl

def exampleBuffer (text : Bytes) : Bytes :=
  ascii "\x7b\"data\":" ++ text ++ ascii ",\"model\":\"m\",\"version\":\"1\"\x7d"

def exampleHttp (text : Bytes) : HttpRequest :=
  ⟨.post, ascii "/api/sessions/m/1", 11, true, text⟩

def exampleManager : Manager where
  sessions := OrderedMap.empty.emplace Session.exampleKey (.fresh Session.exampleKey 0 [] [])
  heap := Heap.empty

end OnnxruntimeServer
