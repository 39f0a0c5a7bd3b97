import OnnxruntimeServer.Json

namespace OnnxruntimeServer
set_option autoImplicit true

/-- A task with the members that its constructor fills in. -/
inductive Task where
  | createSession (model_name model_version : Bytes) (option : Json) (model_data : Option Bytes)
  | executeSession (model_name model_version : Bytes) (data : Json)
  | getSession (model_name model_version : Bytes)
  | destroySession (model_name model_version : Bytes)
  | listSession

namespace Task

def CREATE_SESSION : Int16 := 1
def EXECUTE_SESSION : Int16 := 5
def DESTROY_SESSION : Int16 := 9
def LIST_SESSION : Int16 := 21
def GET_SESSION : Int16 := 22

end Task

/-- The constructor that the session tasks share. -/
def sessionTask (request_json : Json) : Except Exception (Bytes × Bytes) :=
  match request_json.find (ascii "model"), request_json.find (ascii "version") with
  | some (.string model_name), some (.string model_version) => .ok (model_name, model_version)
  | _, _ => .error (badRequestError (ascii
      "Invalid session task. Must be a JSON object with model(string) and version(string) fields"))

def createSession (request_json : Json) (model_data : Option Bytes) : Except Exception Task := do
  let (model_name, model_version) ← sessionTask request_json
  let option := request_json.member (ascii "option")
  .ok (.createSession model_name model_version
    (if option.isObject then option else .object []) model_data)

def executeSession (request_json : Json) : Except Exception Task := do
  let (model_name, model_version) ← sessionTask request_json
  let data := request_json.member (ascii "data")
  if data.isObject then .ok (.executeSession model_name model_version data)
  else .error (badRequestError (ascii
    "Invalid session task. Must be a JSON object with data(object) field"))

def getSession (request_json : Json) : Except Exception Task := do
  let (model_name, model_version) ← sessionTask request_json
  .ok (.getSession model_name model_version)

def destroySession (request_json : Json) : Except Exception Task := do
  let (model_name, model_version) ← sessionTask request_json
  .ok (.destroySession model_name model_version)

/-- `tcp_session::create_task`. -/
def createTask (type : Int16) (request_json : Json) (post : Option Bytes) : Except Exception Task :=
  if type = Task.EXECUTE_SESSION then executeSession request_json
  else if type = Task.GET_SESSION then getSession request_json
  else if type = Task.CREATE_SESSION then createSession request_json post
  else if type = Task.DESTROY_SESSION then destroySession request_json
  else if type = Task.LIST_SESSION then .ok .listSession
  else .error (badRequestError (ascii "Invalid task type"))

/-- What the request handlers call: the JSON library, and `run()` of a task on the session
manager's state `M`. -/
structure Services (M : Type) where
  json : JsonLibrary
  run : M → Task → M × Except Exception Json

end OnnxruntimeServer
