import OnnxruntimeServer.CudaOptions

namespace OnnxruntimeServer
set_option autoImplicit true

inductive GraphOptimizationLevel where
  | ORT_DISABLE_ALL
  | ORT_ENABLE_BASIC
  | ORT_ENABLE_EXTENDED
  | ORT_ENABLE_LAYOUT
  | ORT_ENABLE_ALL
  deriving DecidableEq

inductive ExecutionMode where
  | ORT_PARALLEL
  | ORT_SEQUENTIAL
  deriving DecidableEq

/-- `parse_graph_opt_level`; none where `valid` is false. -/
def parseGraphOptLevel (v : Bytes) : Option GraphOptimizationLevel :=
  if v = ascii "disable" ∨ v = ascii "disabled" ∨ v = ascii "off" then some .ORT_DISABLE_ALL
  else if v = ascii "basic" then some .ORT_ENABLE_BASIC
  else if v = ascii "extended" then some .ORT_ENABLE_EXTENDED
  else if v = ascii "layout" then some .ORT_ENABLE_LAYOUT
  else if v = ascii "all" then some .ORT_ENABLE_ALL
  else none

/-- `parse_execution_mode`; none where `valid` is false. -/
def parseExecutionMode (v : Bytes) : Option ExecutionMode :=
  if v = ascii "parallel" then some .ORT_PARALLEL
  else if v = ascii "sequential" then some .ORT_SEQUENTIAL
  else none

/-- A call of a setter of `Ort::SessionOptions`. Texts are passed with `c_str()`. -/
inductive SetterCall where
  | setIntraOpNumThreads (v : Int)
  | setInterOpNumThreads (v : Int)
  | setExecutionMode (mode : ExecutionMode)
  | setGraphOptimizationLevel (lvl : GraphOptimizationLevel)
  | enableCpuMemArena
  | disableCpuMemArena
  | enableMemPattern
  | disableMemPattern
  | setLogSeverityLevel (v : Int)
  | setLogId (v : Bytes)
  | enableProfiling ( file_prefix : Bytes)
  | setOptimizedModelFilePath (s : Bytes)
  | addFreeDimensionOverrideByName (name : Bytes) (dim : Int)
  | addConfigEntry (key sv : Bytes)
  deriving DecidableEq

/-- Whether ORT takes a call, and does not throw: for each call, by how many calls of its setter
came before it. -/
abbrev Accepts := Nat → SetterCall → Bool

/-- What a block of `apply_session_options` does: the calls that go through, and what it adds to
`applied`. -/
structure Applied where
  calls : List SetterCall
  entries : List (Bytes × Json)

/-- `if (try_apply(call)) applied[key] = value`. -/
def tryApply (accepts : Accepts) (call : SetterCall) (entries : List (Bytes × Json)) : Applied :=
  if accepts 0 call then ⟨[call], entries⟩ else ⟨[], []⟩

def nothingApplied : Applied := ⟨[], []⟩

/-- A block of `apply_session_options`, with the keys that it reads and writes. -/
structure Block where
  keys : List Bytes
  run : Accepts → Json → Applied

/-- A block that looks at the value of one key. -/
def Block.one (key : Bytes) (body : Accepts → Json → Applied) : Block :=
  ⟨[key], fun accepts input => body accepts (input.member key)⟩

def applyInt (key : Bytes) (setter : Int → SetterCall) : Block :=
  .one key fun accepts value =>
    match value.integer? with
    | some i => tryApply accepts (setter (wrap true 32 i)) [(key, .integer (.ofInt (wrap true 32 i)))]
    | none => nothingApplied

def applySwitch (key : Bytes) (enable disable : SetterCall) : Block :=
  .one key fun accepts value =>
    match value with
    | .boolean v => tryApply accepts (if v then enable else disable) [(key, .boolean v)]
    | _ => nothingApplied

def applyText (key : Bytes) (setter : Bytes → SetterCall) : Block :=
  .one key fun accepts value =>
    match value with
    | .string v => tryApply accepts (setter (cString v)) [(key, .string v)]
    | _ => nothingApplied

def applyIntraOpNumThreads : Block :=
  applyInt (ascii "intra_op_num_threads") .setIntraOpNumThreads

def applyInterOpNumThreads : Block :=
  applyInt (ascii "inter_op_num_threads") .setInterOpNumThreads

def applyExecutionMode : Block :=
  .one (ascii "execution_mode") fun accepts value =>
    match value with
    | .string s =>
      match parseExecutionMode s with
      | some mode => tryApply accepts (.setExecutionMode mode) [(ascii "execution_mode",
          .string (if mode = .ORT_PARALLEL then ascii "parallel" else ascii "sequential"))]
      | none => nothingApplied
    | _ => nothingApplied

def applyGraphOptimizationLevel : Block :=
  .one (ascii "graph_optimization_level") fun accepts value =>
    match value with
    | .string s =>
      match parseGraphOptLevel s with
      | some lvl => tryApply accepts (.setGraphOptimizationLevel lvl)
          [(ascii "graph_optimization_level", .string s)]
      | none => nothingApplied
    | _ => nothingApplied

def applyEnableCpuMemArena : Block :=
  applySwitch (ascii "enable_cpu_mem_arena") .enableCpuMemArena .disableCpuMemArena

def applyEnableMemPattern : Block :=
  applySwitch (ascii "enable_mem_pattern") .enableMemPattern .disableMemPattern

def applyLogSeverityLevel : Block := applyInt (ascii "log_severity_level") .setLogSeverityLevel

def applyLogid : Block := applyText (ascii "logid") .setLogId

def profileFilePrefix (value : Json) : Bytes :=
  match value with
  | .string file_prefix => file_prefix
  | _ => []

def applyEnableProfiling : Block where
  keys := [ascii "enable_profiling", ascii "profile_file_prefix"]
  run accepts input :=
    match input.member (ascii "enable_profiling") with
    | .boolean true =>
      let file_prefix := profileFilePrefix (input.member (ascii "profile_file_prefix"))
      tryApply accepts (.enableProfiling (cString file_prefix))
        [(ascii "enable_profiling", .boolean true),
          (ascii "profile_file_prefix", .string file_prefix)]
    | _ => nothingApplied

def applyOptimizedModelFilepath : Block :=
  applyText (ascii "optimized_model_filepath") .setOptimizedModelFilePath

/-- The loop over `free_dimension_overrides`, of which `n` have been passed on: the calls that go
through and the members of `normalized`, which come in the order of their keys. -/
def freeDimensionsFrom (accepts : Accepts) (n : Nat) : List (Bytes × Json) → Applied
  | [] => nothingApplied
  | (name, value) :: rest =>
    match value.integer? with
    | none => freeDimensionsFrom accepts n rest
    | some i =>
      let call := .addFreeDimensionOverrideByName (cString name) (wrap true 64 i)
      let more := freeDimensionsFrom accepts (n + 1) rest
      if accepts n call then
        ⟨call :: more.calls, (name, .integer (.ofInt (wrap true 64 i))) :: more.entries⟩
      else more

/-- What a loop has collected, under its key unless it is empty. -/
def Applied.under (key : Bytes) (applied : Applied) : Applied :=
  ⟨applied.calls, if applied.entries = [] then [] else [(key, .object applied.entries)]⟩

def applyFreeDimensionOverrides : Block :=
  .one (ascii "free_dimension_overrides") fun accepts value =>
    match value with
    | .object members =>
      (freeDimensionsFrom accepts 0 members).under (ascii "free_dimension_overrides")
    | _ => nothingApplied

/-- The text that a value of `config_entries` is passed on as. -/
def configText (value : Json) : Option Bytes :=
  match value with
  | .string s => some s
  | .boolean b => some (if b then ascii "1" else ascii "0")
  | value => value.integer?.map fun i => ascii (toString (wrap true 64 i))

/-- `GetSessionConfigEntry`: the last text stored for a key. -/
def getSessionConfigEntry (store : List (Bytes × Bytes)) (key : Bytes) : Option Bytes :=
  (store.reverse.find? fun e => e.1 = key).map Prod.snd

/-- The loop over `config_entries`. Each entry that is stored is read back at once. -/
def configEntriesFrom (accepts : Accepts) (n : Nat) (store : List (Bytes × Bytes)) :
    List (Bytes × Json) → Applied
  | [] => nothingApplied
  | (key, value) :: rest =>
    match configText value with
    | none => configEntriesFrom accepts n store rest
    | some sv =>
      let call := .addConfigEntry (cString key) (cString sv)
      if accepts n call then
        let store := store ++ [(cString key, cString sv)]
        let more := configEntriesFrom accepts (n + 1) store rest
        match getSessionConfigEntry store (cString key) with
        | none => ⟨call :: more.calls, more.entries⟩
        | some out => ⟨call :: more.calls, (key, .string out) :: more.entries⟩
      else configEntriesFrom accepts (n + 1) store rest

def applyConfigEntries : Block :=
  .one (ascii "config_entries") fun accepts value =>
    match value with
    | .object members => (configEntriesFrom accepts 0 [] members).under (ascii "config_entries")
    | _ => nothingApplied

def blocks : List Block := [
  applyIntraOpNumThreads, applyInterOpNumThreads, applyExecutionMode, applyGraphOptimizationLevel,
  applyEnableCpuMemArena, applyEnableMemPattern, applyLogSeverityLevel, applyLogid,
  applyEnableProfiling, applyOptimizedModelFilepath, applyFreeDimensionOverrides,
  applyConfigEntries]

/-- Members are put into an object one after the other. -/
def putMembers (j : Json) (entries : List (Bytes × Json)) : Json :=
  entries.foldl (fun applied e => applied.set e.1 e.2) j

/-- `apply_session_options`: the calls that go through, in order, and `applied`. -/
def applySessionOptions (accepts : Accepts) (input : Json) : List SetterCall × Json :=
  if input.isObject then
    (blocks.flatMap fun block => (block.run accepts input).calls,
      putMembers (.object []) (blocks.flatMap fun block => (block.run accepts input).entries))
  else ([], .object [])

end OnnxruntimeServer
