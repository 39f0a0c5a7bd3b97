import OnnxruntimeServer.HttpSession
import OnnxruntimeServer.Manager
import OnnxruntimeServer.TcpFraming

namespace OnnxruntimeServer
set_option autoImplicit true

/-- The syntax tree of a JSON text. An object keeps the members in the order of the text, also those
that a later one of the same key replaces. -/
inductive Document where
  | scalar (value : Json) (flat : value.isArray = false ∧ value.isObject = false)
  | array (items : List Document)
  | object (members : List (Bytes × Document))

/-- `parse_event_t`. -/
inductive ParseEvent where
  | objectStart
  | objectEnd
  | arrayStart
  | arrayEnd
  | key
  | value

/-- The depth that `json_sax_dom_callback_parser` passes on with an event, and the size of its
`ref_stack` after it. -/
def ParseEvent.report (ref_stack : Nat) : ParseEvent → Int × Nat
  | .objectStart | .arrayStart => (ref_stack, ref_stack + 1)
  | .objectEnd | .arrayEnd => ((ref_stack : Int) - 1, ref_stack - 1)
  | .key | .value => (ref_stack, ref_stack)

def callbackDepths : Nat → List ParseEvent → List Int
  | _, [] => []
  | ref_stack, event :: events =>
    (event.report ref_stack).1 :: callbackDepths (event.report ref_stack).2 events

namespace Document

mutual
def events (doc : Document) : List ParseEvent :=
  match doc with
  | .scalar _ _ => [.value]
  | .array items => .arrayStart :: (eventsItems items ++ [.arrayEnd])
  | .object members => .objectStart :: (eventsMembers members ++ [.objectEnd])
termination_by structural doc

def eventsItems (items : List Document) : List ParseEvent :=
  match items with
  | [] => []
  | item :: items => events item ++ eventsItems items
termination_by structural items

def eventsMembers (members : List (Bytes × Document)) : List ParseEvent :=
  match members with
  | [] => []
  | (_, doc) :: members => .key :: (events doc ++ eventsMembers members)
termination_by structural members
end

mutual
/-- The value of a text. Of members with one key the last one stays. -/
def value (doc : Document) : Json :=
  match doc with
  | .scalar j _ => j
  | .array items => .array (valueItems items)
  | .object members => .object (valueMembers members [])
termination_by structural doc

def valueItems (items : List Document) : List Json :=
  match items with
  | [] => []
  | item :: items => value item :: valueItems items
termination_by structural items

def valueMembers (members : List (Bytes × Document)) (found : List (Bytes × Json)) :
    List (Bytes × Json) :=
  match members with
  | [] => found
  | (key, doc) :: members => valueMembers members (Json.setMember key (value doc) found)
termination_by structural members
end

mutual
/-- The largest number of arrays and objects that are open at once. -/
def nesting (doc : Document) : Nat :=
  match doc with
  | .scalar _ _ => 0
  | .array items => nestingItems items + 1
  | .object members => nestingMembers members + 1
termination_by structural doc

def nestingItems (items : List Document) : Nat :=
  match items with
  | [] => 0
  | item :: items => max (nesting item) (nestingItems items)
termination_by structural items

def nestingMembers (members : List (Bytes × Document)) : Nat :=
  match members with
  | [] => 0
  | (_, doc) :: members => max (nesting doc) (nestingMembers members)
termination_by structural members
end

mutual
/-- The largest number of arrays and objects that are open around some value or key. -/
def depth (doc : Document) : Nat :=
  match doc with
  | .scalar _ _ => 0
  | .array items => depthItems items
  | .object members => depthMembers members
termination_by structural doc

def depthItems (items : List Document) : Nat :=
  match items with
  | [] => 0
  | item :: items => max (depth item + 1) (depthItems items)
termination_by structural items

def depthMembers (members : List (Bytes × Document)) : Nat :=
  match members with
  | [] => 0
  | (_, doc) :: members => max (depth doc + 1) (depthMembers members)
termination_by structural members
end

mutual
theorem depth_le_nesting (doc : Document) :
    doc.depth ≤ doc.nesting ∧ doc.nesting ≤ doc.depth + 1 := by
  cases doc with
  | scalar j flat => exact ⟨le_rfl, Nat.zero_le _⟩
  | array items =>
    have h := depthItems_le items
    rw [depth, nesting]
    omega
  | object members =>
    have h := depthMembers_le members
    rw [depth, nesting]
    omega

theorem depthItems_le (items : List Document) :
    depthItems items ≤ nestingItems items + 1 ∧ nestingItems items ≤ depthItems items := by
  match items with
  | [] => exact ⟨Nat.zero_le _, le_rfl⟩
  | item :: items =>
    have hitem := depth_le_nesting item
    have hitems := depthItems_le items
    rw [depthItems, nestingItems]
    omega

theorem depthMembers_le (members : List (Bytes × Document)) :
    depthMembers members ≤ nestingMembers members + 1 ∧
      nestingMembers members ≤ depthMembers members := by
  match members with
  | [] => exact ⟨Nat.zero_le _, le_rfl⟩
  | (_, doc) :: members =>
    have hdoc := depth_le_nesting doc
    have hmembers := depthMembers_le members
    rw [depthMembers, nestingMembers]
    omega
end

/-- No depth that the callback is passed exceeds `m`. -/
def Within (m : Int) (ref_stack : Nat) (events : List ParseEvent) : Prop :=
  ∀ d ∈ callbackDepths ref_stack events, d ≤ m

theorem within_cons {m : Int} {ref_stack : Nat} {event : ParseEvent} {events : List ParseEvent} :
    Within m ref_stack (event :: events) ↔
      (event.report ref_stack).1 ≤ m ∧ Within m (event.report ref_stack).2 events := by
  rw [Within, callbackDepths, List.forall_mem_cons, Within]

theorem within_container {m : Int} {n d : Nat} {start close : ParseEvent}
    {inner : List ParseEvent} (hs : start.report n = ((n : Int), n + 1))
    (hc : close.report (n + 1) = ((n : Int), n))
    (hinner : ∀ rest, Within m (n + 1) (inner ++ rest) ∧ (n : Int) ≤ m ↔
      (n + d : Int) ≤ m ∧ Within m (n + 1) rest) (rest : List ParseEvent) :
    Within m n (start :: (inner ++ [close]) ++ rest) ↔ (n + d : Int) ≤ m ∧ Within m n rest := by
  have h := hinner (close :: rest)
  rw [within_cons, hc] at h
  rw [List.cons_append, List.append_assoc, List.singleton_append, within_cons, hs, and_comm, h]
  constructor
  · rintro ⟨hdepth, _, hrest⟩
    exact ⟨hdepth, hrest⟩
  · rintro ⟨hdepth, hrest⟩
    exact ⟨hdepth, by omega, hrest⟩

mutual
theorem within_events (m : Int) (n : Nat) (doc : Document) (rest : List ParseEvent) :
    Within m n (doc.events ++ rest) ↔ (n + doc.depth : Int) ≤ m ∧ Within m n rest := by
  cases doc with
  | scalar j flat =>
    rw [events, depth, List.cons_append, List.nil_append, within_cons, Nat.cast_zero, add_zero]
    rfl
  | array items =>
    rw [events, depth]
    apply within_container rfl _ (within_eventsItems m n items) rest
    simp [ParseEvent.report]
  | object members =>
    rw [events, depth]
    apply within_container rfl _ (within_eventsMembers m n members) rest
    simp [ParseEvent.report]

theorem within_eventsItems (m : Int) (n : Nat) (items : List Document) (rest : List ParseEvent) :
    Within m (n + 1) (eventsItems items ++ rest) ∧ (n : Int) ≤ m ↔
      (n + depthItems items : Int) ≤ m ∧ Within m (n + 1) rest := by
  match items with
  | [] =>
    rw [eventsItems, depthItems, List.nil_append, Nat.cast_zero, add_zero, and_comm]
  | item :: items =>
    have hitem := within_events m (n + 1) item (eventsItems items ++ rest)
    have hitems := within_eventsItems m n items rest
    rw [eventsItems, depthItems, List.append_assoc, hitem, and_assoc, hitems, ← and_assoc]
    apply and_congr_left'
    omega

theorem within_eventsMembers (m : Int) (n : Nat) (members : List (Bytes × Document))
    (rest : List ParseEvent) :
    Within m (n + 1) (eventsMembers members ++ rest) ∧ (n : Int) ≤ m ↔
      (n + depthMembers members : Int) ≤ m ∧ Within m (n + 1) rest := by
  match members with
  | [] =>
    rw [eventsMembers, depthMembers, List.nil_append, Nat.cast_zero, add_zero, and_comm]
  | (key, doc) :: members =>
    have hdoc := within_events m (n + 1) doc (eventsMembers members ++ rest)
    have hmembers := within_eventsMembers m n members rest
    rw [eventsMembers, depthMembers, List.cons_append, List.append_assoc, within_cons]
    simp only [ParseEvent.report]
    rw [hdoc, and_assoc, and_assoc, hmembers, ← and_assoc, ← and_assoc]
    apply and_congr_left'
    omega
end

end Document

/-- What the callback parser is known for: a valid text has a syntax tree, whose events it reports
and whose value it returns, and any other text is an error. -/
structure CallbackParser (lib : JsonLibrary) (document : Bytes → Option Document) : Prop where
  valid : document body = some doc →
    lib.parse body = ⟨callbackDepths 0 doc.events, .ok doc.value⟩
  invalid : document body = none → ∃ e, (lib.parse body).result = .error e

variable {lib : JsonLibrary} {document : Bytes → Option Document}

theorem parseRequestJson_ok_iff (h : CallbackParser lib document) :
    parseRequestJson lib body = .ok j ↔
      ∃ doc, document body = some doc ∧ (doc.depth : Int) ≤ MAX_JSON_NESTING_DEPTH ∧
        doc.value = j := by
  cases hd : document body with
  | none =>
    obtain ⟨e, he⟩ := h.invalid hd
    simp only [parseRequestJson, he, reduceCtorEq, false_and, exists_false, iff_false]
    split_ifs <;> simp
  | some doc =>
    have hwithin := Document.within_events MAX_JSON_NESTING_DEPTH 0 doc []
    rw [List.append_nil, Nat.cast_zero, zero_add] at hwithin
    have hnil : Document.Within MAX_JSON_NESTING_DEPTH 0 [] := by
      simp [Document.Within, callbackDepths]
    simp only [hnil, and_true] at hwithin
    simp only [parseRequestJson, h.valid hd, Option.some.injEq, exists_eq_left', ← hwithin]
    split_ifs with hany
    · have hdeep : ¬ Document.Within MAX_JSON_NESTING_DEPTH 0 doc.events := by
        obtain ⟨d, hd, hlt⟩ := List.any_eq_true.1 hany
        intro hw
        have := hw d hd
        simp only [decide_eq_true_eq] at hlt
        omega
      simp [hdeep]
    · have hw : Document.Within MAX_JSON_NESTING_DEPTH 0 doc.events := by
        intro d hd
        by_contra hlt
        exact hany (List.any_eq_true.2 ⟨d, hd, by simpa using hlt⟩)
      simp [hw]

/-- It goes by the nesting of the text, except where the innermost of too many arrays and objects
are empty. -/
theorem parseRequestJson_nesting_iff (h : CallbackParser lib document) (body : Bytes) :
    ((∃ j, parseRequestJson lib body = .ok j) ↔
        ∃ doc, document body = some doc ∧ (doc.nesting : Int) ≤ MAX_JSON_NESTING_DEPTH) ↔
      ¬ ∃ doc, document body = some doc ∧ (doc.nesting : Int) = MAX_JSON_NESTING_DEPTH + 1 ∧
        (doc.depth : Int) ≤ MAX_JSON_NESTING_DEPTH := by
  cases hd : document body with
  | none => simp [parseRequestJson_ok_iff h, hd]
  | some doc =>
    have hle := doc.depth_le_nesting
    simp only [parseRequestJson_ok_iff h, hd, Option.some.injEq, exists_and_left, exists_eq_left']
    simp only [exists_eq', and_true]
    omega

namespace Json

mutual
/-- The largest number of arrays and objects in a value that lie inside one another. -/
def nesting (j : Json) : Nat :=
  match j with
  | .array items => nestingItems items + 1
  | .object members => nestingMembers members + 1
  | _ => 0
termination_by structural j

def nestingItems (items : List Json) : Nat :=
  match items with
  | [] => 0
  | item :: items => max (nesting item) (nestingItems items)
termination_by structural items

def nestingMembers (members : List (Bytes × Json)) : Nat :=
  match members with
  | [] => 0
  | (_, value) :: members => max (nesting value) (nestingMembers members)
termination_by structural members
end

mutual
/-- The number of levels of arrays that `flat_json_values` descends. -/
def arrayDepth (j : Json) : Nat :=
  match j with
  | .array items => arrayDepthItems items + 1
  | _ => 0
termination_by structural j

def arrayDepthItems (items : List Json) : Nat :=
  match items with
  | [] => 0
  | item :: items => max (arrayDepth item) (arrayDepthItems items)
termination_by structural items
end

mutual
theorem arrayDepth_le_nesting (j : Json) : j.arrayDepth ≤ j.nesting := by
  cases j with
  | array items =>
    rw [arrayDepth, nesting]
    exact Nat.succ_le_succ (arrayDepthItems_le items)
  | _ => exact Nat.zero_le _

theorem arrayDepthItems_le (items : List Json) : arrayDepthItems items ≤ nestingItems items := by
  match items with
  | [] => exact le_rfl
  | item :: items =>
    rw [arrayDepthItems, nestingItems]
    exact max_le_max (arrayDepth_le_nesting item) (arrayDepthItems_le items)
end

theorem firstDims_length_le_arrayDepth (r : Nat) (j : Json) :
    (firstDims r j).length ≤ j.arrayDepth := by
  induction r, j using firstDims.induct with
  | case1 r item items ih =>
    rw [firstDims, List.length_cons, arrayDepth, arrayDepthItems]
    exact Nat.succ_le_succ (ih.trans (le_max_left _ _))
  | case2 r j hj => simp [firstDims]

theorem nesting_le_of_find {members : List (Bytes × Json)}
    (h : members.find? (fun e => e.1 = key) = some e) : e.2.nesting ≤ nestingMembers members := by
  induction members with
  | nil => cases h
  | cons m members ih =>
    rw [nestingMembers]
    by_cases hm : m.1 = key
    · rw [List.find?_cons_of_pos (by simpa using hm)] at h
      obtain rfl := Option.some.inj h
      exact le_max_left _ _
    · rw [List.find?_cons_of_neg (by simpa using hm)] at h
      exact (ih h).trans (le_max_right _ _)

theorem nesting_member (j : Json) (key : Bytes) : (j.member key).nesting ≤ j.nesting - 1 := by
  rw [member]
  cases hf : j.find key with
  | none => exact Nat.zero_le _
  | some value =>
    cases j with
    | object members =>
      obtain ⟨e, he, rfl⟩ := Option.map_eq_some_iff.1 hf
      rw [nesting, Nat.add_sub_cancel]
      exact nesting_le_of_find he
    | _ => cases hf

theorem nestingMembers_setMember_le (key : Bytes) (value : Json) (members : List (Bytes × Json)) :
    nestingMembers (setMember key value members) ≤ max value.nesting (nestingMembers members) := by
  induction members with
  | nil => simp [setMember, nestingMembers]
  | cons e members ih =>
    rw [setMember]
    split_ifs with hlt heq
    · simp [nestingMembers]
    · simp only [nestingMembers]
      omega
    · simp only [nestingMembers]
      omega

end Json

namespace Document

theorem nesting_of_flat {j : Json} (h : j.isArray = false ∧ j.isObject = false) :
    j.nesting = 0 := by
  cases j with
  | array items => cases h.1
  | object members => cases h.2
  | _ => rfl

mutual
theorem nesting_value_le (doc : Document) : doc.value.nesting ≤ doc.nesting := by
  cases doc with
  | scalar j flat =>
    rw [value, nesting_of_flat flat]
    exact Nat.zero_le _
  | array items =>
    rw [value, Json.nesting, nesting]
    exact Nat.succ_le_succ (nesting_valueItems_le items)
  | object members =>
    rw [value, Json.nesting, nesting]
    have h := nesting_valueMembers_le members []
    rw [Json.nestingMembers, Nat.zero_max] at h
    exact Nat.succ_le_succ h

theorem nesting_valueItems_le (items : List Document) :
    Json.nestingItems (valueItems items) ≤ nestingItems items := by
  match items with
  | [] => exact le_rfl
  | item :: items =>
    rw [valueItems, Json.nestingItems, nestingItems]
    exact max_le_max (nesting_value_le item) (nesting_valueItems_le items)

theorem nesting_valueMembers_le (members : List (Bytes × Document)) (found : List (Bytes × Json)) :
    Json.nestingMembers (valueMembers members found) ≤
      max (Json.nestingMembers found) (nestingMembers members) := by
  match members with
  | [] => exact le_max_left _ _
  | (key, doc) :: members =>
    have hdoc := nesting_value_le doc
    have hmembers := nesting_valueMembers_le members (Json.setMember key doc.value found)
    have hset := Json.nestingMembers_setMember_le key doc.value found
    rw [valueMembers, nestingMembers]
    omega
end

end Document

theorem parseRequestJson_nesting_le (h : CallbackParser lib document)
    (hj : parseRequestJson lib body = .ok j) : (j.nesting : Int) ≤ MAX_JSON_NESTING_DEPTH + 1 := by
  obtain ⟨doc, _, hdepth, rfl⟩ := (parseRequestJson_ok_iff h).1 hj
  have hvalue := doc.nesting_value_le
  have hle := doc.depth_le_nesting
  omega

theorem datasetOf_ok (hd : datasetOf lib json_str = .ok dataset) :
    dataset = json_str ∨ ∃ body, parseRequestJson lib body = .ok dataset := by
  cases json_str with
  | string body =>
    obtain ⟨j, hparse, hobject⟩ := bind_eq_ok.1 hd
    dsimp only at hobject
    split_ifs at hobject
    obtain rfl := Except.ok.inj hobject
    exact .inr ⟨body, hparse⟩
  | object members => exact .inl (Except.ok.inj hd).symm
  | _ => cases hd

/-- However a dataset arrives, its arrays are nested no deeper than the limit. -/
theorem arrayDepth_dataset_le (h : CallbackParser lib document)
    (hj : (json_str.nesting : Int) ≤ MAX_JSON_NESTING_DEPTH + 1)
    (hd : datasetOf lib json_str = .ok dataset) (name : Bytes) :
    ((dataset.member name).arrayDepth : Int) ≤ MAX_JSON_NESTING_DEPTH := by
  have hdataset : (dataset.nesting : Int) ≤ MAX_JSON_NESTING_DEPTH + 1 := by
    rcases datasetOf_ok hd with rfl | ⟨body, hparse⟩
    · exact hj
    · exact parseRequestJson_nesting_le h hparse
  have harray := (dataset.member name).arrayDepth_le_nesting
  have hmember := dataset.nesting_member name
  have hmax : (0 : Int) ≤ MAX_JSON_NESTING_DEPTH := by decide
  omega

theorem executeSession_ok
    (h : executeSession request_json = .ok (.executeSession model version data)) :
    data = request_json.member (ascii "data") := by
  rw [executeSession] at h
  obtain ⟨⟨model_name, model_version⟩, _, h⟩ := bind_eq_ok.1 h
  dsimp only at h
  split_ifs at h
  exact (Task.executeSession.inj (Except.ok.inj h)).2.2.symm

theorem createTask_execute
    (h : createTask type request_json post = .ok (.executeSession model version data)) :
    data = request_json.member (ascii "data") := by
  rw [createTask] at h
  split_ifs at h
  · exact executeSession_ok h
  · obtain ⟨_, _, h⟩ := bind_eq_ok.1 h
    cases h
  · obtain ⟨_, _, h⟩ := bind_eq_ok.1 h
    cases h
  · obtain ⟨_, _, h⟩ := bind_eq_ok.1 h
    cases h
  · cases h

theorem bodyJson_nesting_le (h : CallbackParser lib document) {session : TcpSession}
    (hj : session.bodyJson lib header = .ok j) :
    (j.nesting : Int) ≤ MAX_JSON_NESTING_DEPTH + 1 := by
  rw [TcpSession.bodyJson] at hj
  split_ifs at hj
  · exact parseRequestJson_nesting_le h hj
  · obtain rfl := Except.ok.inj hj
    decide

theorem assignPath_data {session : TcpSession} (h : session.assignPath j = .ok j') :
    j'.member (ascii "data") = j.member (ascii "data") := by
  obtain ⟨option, _, h⟩ := bind_eq_ok.1 h
  cases j with
  | null =>
    obtain rfl := Except.ok.inj h
    rfl
  | object members =>
    obtain rfl := Except.ok.inj h
    rw [Json.member, Json.member, Json.find, Json.find, Json.find_setMember, if_neg (by decide)]
  | _ => cases h

theorem requestTask_nesting_le (h : CallbackParser lib document) {session : TcpSession}
    (ht : session.requestTask lib header = .ok (.executeSession model version data)) :
    (data.nesting : Int) ≤ MAX_JSON_NESTING_DEPTH + 1 := by
  obtain ⟨json, hjson, hcreate⟩ := bind_eq_ok.1 ht
  rw [createTask_execute hcreate]
  obtain ⟨body, hbody, hpath⟩ := bind_eq_ok.1 hjson
  have hle := bodyJson_nesting_le h hbody
  have hmember := body.nesting_member (ascii "data")
  split_ifs at hpath with hp ho
  · rw [assignPath_data hpath]
    omega
  · rw [assignPath_data hpath]
    decide
  · obtain rfl := Except.ok.inj hpath
    omega

theorem httpTask_nesting_le (h : CallbackParser lib document) {req : HttpRequest}
    (ht : req.task lib = some (.ok (.executeSession model version data))) :
    (data.nesting : Int) ≤ MAX_JSON_NESTING_DEPTH + 1 := by
  rw [HttpRequest.task] at ht
  split at ht
  · obtain ⟨j, hparse, hj⟩ := bind_eq_ok.1 (Option.some.inj ht)
    obtain ⟨_, _, rfl⟩ := Task.executeSession.inj (Except.ok.inj hj)
    exact parseRequestJson_nesting_le h hparse
  · cases ht
  · cases ht
  · split_ifs at ht
    split at ht
    · cases ht
    · obtain ⟨j, _, hj⟩ := bind_eq_ok.1 (Option.some.inj ht)
      obtain ⟨_, _, hj⟩ := bind_eq_ok.1 hj
      cases hj
    · cases ht

/-- A task that some request over TCP or HTTP is made into. -/
def Requested (lib : JsonLibrary) (task : Task) : Prop :=
  (∃ (session : TcpSession) (header : ProtocolHeader), session.requestTask lib header = .ok task) ∨
    ∃ req : HttpRequest, req.task lib = some (.ok task)

/-- The guard goes by the nesting of a text exactly where not only empty arrays and objects are
nested too deep, and no tensor of a request is nested deeper than the limit. -/
theorem depth_guard_iff (h : CallbackParser lib document) :
    (∀ body, ((∃ j, parseRequestJson lib body = .ok j) ↔
        ∃ doc, document body = some doc ∧ (doc.nesting : Int) ≤ MAX_JSON_NESTING_DEPTH) ↔
      ¬ ∃ doc, document body = some doc ∧ (doc.nesting : Int) = MAX_JSON_NESTING_DEPTH + 1 ∧
        (doc.depth : Int) ≤ MAX_JSON_NESTING_DEPTH) ∧
    ∀ model version data dataset name r, Requested lib (.executeSession model version data) →
      datasetOf lib data = .ok dataset →
        ((dataset.member name).arrayDepth : Int) ≤ MAX_JSON_NESTING_DEPTH ∧
          ((firstDims r (dataset.member name)).length : Int) ≤ MAX_JSON_NESTING_DEPTH := by
  refine ⟨parseRequestJson_nesting_iff h, ?_⟩
  intro model version data dataset name r ht hd
  have hdata : (data.nesting : Int) ≤ MAX_JSON_NESTING_DEPTH + 1 := by
    rcases ht with ⟨session, header, ht⟩ | ⟨req, ht⟩
    · exact requestTask_nesting_le h ht
    · exact httpTask_nesting_le h ht
  have hdepth := arrayDepth_dataset_le h hdata hd name
  have hdims := (dataset.member name).firstDims_length_le_arrayDepth r
  exact ⟨hdepth, by omega⟩

def nestedArrays : Nat → Document
  | 0 => .array []
  | n + 1 => .array [nestedArrays n]

def brackets : Nat → Bytes
  | 0 => ascii "[]"
  | n + 1 => ascii "[" ++ brackets n ++ ascii "]"

def oneText (text : Bytes) (doc : Document) : JsonLibrary where
  parse body :=
    if body = text then ⟨callbackDepths 0 doc.events, .ok doc.value⟩
    else ⟨[], .error ⟨ascii "[json.exception.parse_error.101]", body, [], by decide, by decide⟩⟩
  dumpFloat _ := []

def oneDocument (text : Bytes) (doc : Document) (body : Bytes) : Option Document :=
  if body = text then some doc else none

theorem callbackParser_oneText (text : Bytes) (doc : Document) :
    CallbackParser (oneText text doc) (oneDocument text doc) := by
  constructor
  · intro body doc' h
    rw [oneDocument] at h
    split_ifs at h with hb
    obtain rfl := Option.some.inj h
    exact if_pos hb
  · intro body h
    rw [oneDocument] at h
    split_ifs at h with hb
    exact ⟨_, congrArg Parse.result (if_neg hb)⟩

theorem nestedArrays_nesting (n : Nat) :
    (nestedArrays n).nesting = n + 1 ∧ (nestedArrays n).depth = n := by
  induction n with
  | zero => exact ⟨rfl, rfl⟩
  | succ n ih =>
    simp only [nestedArrays, Document.nesting, Document.nestingItems, Document.depth,
      Document.depthItems, ih.1, ih.2]
    omega

theorem depth_guard_iff_two :
    ∃ j, parseRequestJson (oneText (brackets 1) (nestedArrays 1)) (brackets 1) = .ok j := by
  have hguard := (depth_guard_iff (callbackParser_oneText (brackets 1) (nestedArrays 1))).1
    (brackets 1)
  have hnesting := nestedArrays_nesting 1
  apply (hguard.2 _).2
  · refine ⟨nestedArrays 1, if_pos rfl, ?_⟩
    rw [hnesting.1]
    decide
  · rintro ⟨doc, hdoc, hn, _⟩
    obtain rfl := Option.some.inj ((if_pos rfl).symm.trans hdoc)
    rw [hnesting.1] at hn
    revert hn
    decide

/-- Sixty-five arrays, each in the next: nested too deep, but the innermost one holds nothing. -/
theorem depth_guard_not_exact :
    CallbackParser (oneText (brackets 64) (nestedArrays 64))
        (oneDocument (brackets 64) (nestedArrays 64)) ∧
      oneDocument (brackets 64) (nestedArrays 64) (brackets 64) = some (nestedArrays 64) ∧
      MAX_JSON_NESTING_DEPTH < ((nestedArrays 64).nesting : Int) ∧
      ∃ j, parseRequestJson (oneText (brackets 64) (nestedArrays 64)) (brackets 64) = .ok j := by
  have hparser := callbackParser_oneText (brackets 64) (nestedArrays 64)
  have hnesting := nestedArrays_nesting 64
  have hdocument : oneDocument (brackets 64) (nestedArrays 64) (brackets 64) =
      some (nestedArrays 64) := if_pos rfl
  refine ⟨hparser, hdocument, ?_, _,
    (parseRequestJson_ok_iff hparser).2 ⟨nestedArrays 64, hdocument, ?_, rfl⟩⟩
  · rw [hnesting.1]
    decide
  · rw [hnesting.2]
    decide

end OnnxruntimeServer
