import OnnxruntimeServer.CudaEcho
import OnnxruntimeServer.JsonRoundTrip
import OnnxruntimeServer.SessionConstruction

namespace OnnxruntimeServer
set_option autoImplicit true

namespace Json

/-- A value whose objects are maps, and whose numbers are of some kind. -/
structure Plain (p : Double → Prop) (j : Json) : Prop where
  sorted : j.KeysSorted
  floats : j.AllFloats p

variable {p q : Double → Prop}

theorem keysSortedItems_iff {items : List Json} :
    KeysSortedItems items ↔ ∀ item ∈ items, item.KeysSorted := by
  induction items with
  | nil => simp [KeysSortedItems]
  | cons item items ih => rw [KeysSortedItems, ih, List.forall_mem_cons]

theorem allFloatsItems_iff {items : List Json} :
    AllFloatsItems p items ↔ ∀ item ∈ items, item.AllFloats p := by
  induction items with
  | nil => simp [AllFloatsItems]
  | cons item items ih => rw [AllFloatsItems, ih, List.forall_mem_cons]

theorem allFloatsMembers_iff {members : List (Bytes × Json)} :
    AllFloatsMembers p members ↔ ∀ e ∈ members, e.2.AllFloats p := by
  induction members with
  | nil => simp [AllFloatsMembers]
  | cons e members ih => rw [AllFloatsMembers, ih, List.forall_mem_cons]

theorem plain_array_iff {items : List Json} :
    (Json.array items).Plain p ↔ ∀ item ∈ items, item.Plain p := by
  constructor
  · intro h item hitem
    exact ⟨keysSortedItems_iff.1 h.sorted item hitem, allFloatsItems_iff.1 h.floats item hitem⟩
  · intro h
    exact ⟨keysSortedItems_iff.2 fun item hitem => (h item hitem).sorted,
      allFloatsItems_iff.2 fun item hitem => (h item hitem).floats⟩

theorem plain_object_iff {members : List (Bytes × Json)} :
    (Json.object members).Plain p ↔
      members.Pairwise (·.1 < ·.1) ∧ ∀ e ∈ members, e.2.Plain p := by
  constructor
  · intro h
    refine ⟨h.sorted.1, fun e he => ⟨?_, ?_⟩⟩
    · exact keysSortedMembers_iff.1 h.sorted.2 e he
    · exact allFloatsMembers_iff.1 h.floats e he
  · intro h
    exact ⟨⟨h.1, keysSortedMembers_iff.2 fun e he => (h.2 e he).sorted⟩,
      allFloatsMembers_iff.2 fun e he => (h.2 e he).floats⟩

mutual
theorem allFloats_true (j : Json) : j.AllFloats fun _ => True := by
  cases j with
  | array items => exact allFloatsItems_true items
  | object members => exact allFloatsMembers_true members
  | _ => trivial

theorem allFloatsItems_true (items : List Json) : AllFloatsItems (fun _ => True) items := by
  match items with
  | [] => trivial
  | item :: items => exact ⟨allFloats_true item, allFloatsItems_true items⟩

theorem allFloatsMembers_true (members : List (Bytes × Json)) :
    AllFloatsMembers (fun _ => True) members := by
  match members with
  | [] => trivial
  | (_, value) :: members => exact ⟨allFloats_true value, allFloatsMembers_true members⟩
end

theorem plain_null : Json.null.Plain p := ⟨trivial, trivial⟩

theorem plain_boolean (b : Bool) : (Json.boolean b).Plain p := ⟨trivial, trivial⟩

theorem plain_integer (i : Int64) : (Json.integer i).Plain p := ⟨trivial, trivial⟩

theorem plain_string (s : Bytes) : (Json.string s).Plain p := ⟨trivial, trivial⟩

theorem plain_empty : (Json.object []).Plain p :=
  plain_object_iff.2 ⟨List.Pairwise.nil, List.forall_mem_nil _⟩

theorem plain_setMember {members : List (Bytes × Json)} (h : (Json.object members).Plain p)
    (key : Bytes) (hv : value.Plain p) : (Json.object (setMember key value members)).Plain p := by
  obtain ⟨hsorted, hmembers⟩ := plain_object_iff.1 h
  refine plain_object_iff.2 ⟨pairwise_setMember hsorted key value, ?_⟩
  intro e he
  rcases eq_or_mem_of_mem_setMember he with rfl | he
  · exact hv
  · exact hmembers e he

variable {j value : Json}

theorem Plain.set (h : j.Plain p) (key : Bytes) (hv : value.Plain p) : (j.set key value).Plain p := by
  apply plain_setMember _ key hv
  cases j with
  | object members => exact h
  | _ => exact plain_empty

theorem Plain.find (h : j.Plain p) (hf : j.find key = some value) : value.Plain p := by
  cases j with
  | object members =>
    obtain ⟨e, he, rfl⟩ := Option.map_eq_some_iff.1 hf
    exact (plain_object_iff.1 h).2 e (List.mem_of_find?_eq_some he)
  | _ => cases hf

theorem Plain.member (h : j.Plain p) (key : Bytes) : (j.member key).Plain p := by
  rw [Json.member]
  cases hf : j.find key with
  | none => exact plain_null
  | some value => exact h.find hf

theorem Plain.erase (h : j.Plain p) (key : Bytes) : (j.erase key).Plain p := by
  cases j with
  | object members =>
    obtain ⟨hsorted, hmembers⟩ := plain_object_iff.1 h
    exact plain_object_iff.2 ⟨hsorted.filter _, fun e he => hmembers e (List.mem_of_mem_filter he)⟩
  | _ => exact h

theorem Plain.assign (h : j.Plain p) (hv : value.Plain p) (ha : j.assign key value = .ok assigned) :
    assigned.Plain p := by
  cases j with
  | object members =>
    obtain rfl := Except.ok.inj ha
    exact plain_setMember h key hv
  | null =>
    obtain rfl := Except.ok.inj ha
    exact plain_setMember plain_empty key hv
  | _ => cases ha

theorem Plain.objectOr (h : j.Plain p) : (if j.isObject then j else .object []).Plain p := by
  split_ifs
  · exact h
  · exact plain_empty

theorem Plain.setNested (h : j.Plain p) (path : List Bytes) (hv : value.Plain p) :
    (setNested j path value).Plain p := by
  induction path generalizing j with
  | nil => exact h
  | cons key path ih =>
    cases path with
    | nil => exact h.set key hv
    | cons k path => exact h.set key (ih (h.member key).objectOr)

end Json

variable {p q : Double → Prop}

theorem plain_inferValue (raw : Bytes) : (inferValue raw).Plain p := by
  rw [inferValue]
  split_ifs
  · exact Json.plain_boolean _
  · exact Json.plain_boolean _
  · cases stoll raw with
    | none => exact Json.plain_string _
    | some i => exact Json.plain_integer i
  · exact Json.plain_string _

theorem plain_applyOption {option : Json} (h : option.Plain p) (raw_key raw_val : Bytes) :
    (applyOption option raw_key raw_val).Plain p := by
  rw [applyOption]
  split
  · exact h
  · split
    · rw [appendExtension]
      split
      · exact h
      · apply h.set
        rw [Json.plain_array_iff, List.forall_mem_append, List.forall_mem_singleton]
        refine ⟨?_, Json.plain_string _⟩
        rw [extensionArray]
        split
        · rename_i arr harr
          exact Json.plain_array_iff.1 (h.find harr)
        · exact List.forall_mem_nil _
    · exact h.setNested _ (plain_inferValue _)

theorem plain_parseOptions (option_str : Bytes) : (parseOptions option_str).Plain p := by
  rw [parseOptions, applyOptions]
  generalize foundOptions option_str = entries
  have h : (Json.object []).Plain p := Json.plain_empty
  generalize Json.object [] = option at h
  induction entries generalizing option with
  | nil => exact h
  | cons e entries ih => exact ih _ (plain_applyOption h e.1 e.2)

theorem plain_of_parse (h : SessionKeyWithOption.parse list = .ok models) (hm : model ∈ models) :
    model.option.Plain p := by
  rw [SessionKeyWithOption.parse_eq_ok] at h
  have hflip := (mapM_forall₂ h.1).flip
  obtain ⟨i, hi⟩ := List.mem_iff_getElem?.1 hm
  obtain ⟨keys, _, hmade⟩ := forall₂_getElem? hflip hi
  obtain ⟨key, _, hmade⟩ := bind_eq_ok.1 hmade
  obtain rfl := Except.ok.inj hmade
  exact plain_parseOptions _

theorem freeDimensionsFrom_keys (accepts : Accepts) (n : Nat) (members : List (Bytes × Json)) :
    ((freeDimensionsFrom accepts n members).entries.map Prod.fst).Sublist
      (members.map Prod.fst) := by
  induction members generalizing n with
  | nil => exact List.Sublist.slnil
  | cons x members ih =>
    obtain ⟨name, value⟩ := x
    rw [freeDimensionsFrom]
    cases value.integer? with
    | none => exact (ih n).cons name
    | some i =>
      dsimp only
      split
      · exact (ih (n + 1)).cons_cons name
      · exact (ih (n + 1)).cons name

theorem configEntriesFrom_keys (accepts : Accepts) (n : Nat) (store : List (Bytes × Bytes))
    (members : List (Bytes × Json)) :
    ((configEntriesFrom accepts n store members).entries.map Prod.fst).Sublist
      (members.map Prod.fst) := by
  induction members generalizing n store with
  | nil => exact List.Sublist.slnil
  | cons x members ih =>
    obtain ⟨key, value⟩ := x
    rw [configEntriesFrom_cons]
    cases configText value with
    | none => exact (ih n store).cons key
    | some sv =>
      dsimp only
      split
      · exact (ih (n + 1) _).cons_cons key
      · exact (ih (n + 1) _).cons key

theorem pairwise_of_keys {entries members : List (Bytes × Json)}
    (h : (entries.map Prod.fst).Sublist (members.map Prod.fst))
    (hsorted : members.Pairwise (·.1 < ·.1)) : entries.Pairwise (·.1 < ·.1) := by
  rw [← List.pairwise_map (f := Prod.fst) (R := (· < ·))] at hsorted ⊢
  exact hsorted.sublist h

def Block.Sorts (p : Double → Prop) (accepts : Accepts) (block : Block) : Prop :=
  ∀ input : Json, input.Plain p → ∀ e ∈ (block.run accepts input).entries,
    ∀ members, e.2 = .object members → members.Pairwise (·.1 < ·.1)

theorem sorts_applyFreeDimensionOverrides (accepts : Accepts) :
    applyFreeDimensionOverrides.Sorts p accepts := by
  intro input hinput e he members hmembers
  have hmember := hinput.member (ascii "free_dimension_overrides")
  rw [applyFreeDimensionOverrides, Block.one] at he
  dsimp only at he
  split at he
  · rename_i asked hasked
    obtain rfl := mem_under he
    obtain rfl := Json.object.inj hmembers
    rw [hasked] at hmember
    exact pairwise_of_keys (freeDimensionsFrom_keys _ _ _) (Json.plain_object_iff.1 hmember).1
  · cases he

theorem sorts_applyConfigEntries (accepts : Accepts) : applyConfigEntries.Sorts p accepts := by
  intro input hinput e he members hmembers
  have hmember := hinput.member (ascii "config_entries")
  rw [applyConfigEntries, Block.one] at he
  dsimp only at he
  split at he
  · rename_i asked hasked
    obtain rfl := mem_under he
    obtain rfl := Json.object.inj hmembers
    rw [hasked] at hmember
    exact pairwise_of_keys (configEntriesFrom_keys _ _ _ _) (Json.plain_object_iff.1 hmember).1
  · cases he

theorem sorts_of_documents {accepts : Accepts} {block : Block} (h : block.Documents accepts)
    (hfree : ascii "free_dimension_overrides" ∉ block.keys)
    (hconfig : ascii "config_entries" ∉ block.keys) : block.Sorts p accepts := by
  intro input _ e he members hmembers
  obtain ⟨hkey, hdocumented⟩ := h input e he
  rw [hmembers] at hdocumented
  generalize he' : e.1 = key at hkey hdocumented
  cases hdocumented with
  | freeDimensionOverrides => exact absurd hkey hfree
  | configEntries => exact absurd hkey hconfig

theorem eq_of_mem_keys {block block' : Block} (hb : block ∈ blocks) (hb' : block' ∈ blocks)
    (hk : k ∈ block.keys) (hk' : k ∈ block'.keys) : block = block' := by
  by_contra hne
  have hsymm : Std.Symm fun a b : Block => ∀ k ∈ a.keys, k ∉ b.keys :=
    ⟨fun _ _ h k hk hk' => h k hk' hk⟩
  exact blocks_disjoint.forall hb hb' hne k hk hk'

theorem blocks_sort (accepts : Accepts) : ∀ block ∈ blocks, block.Sorts p accepts := by
  intro block hb
  by_cases hfree : ascii "free_dimension_overrides" ∈ block.keys
  · have hmem : applyFreeDimensionOverrides ∈ blocks := by simp [blocks]
    rw [eq_of_mem_keys hb hmem hfree List.mem_cons_self]
    exact sorts_applyFreeDimensionOverrides accepts
  · by_cases hconfig : ascii "config_entries" ∈ block.keys
    · have hmem : applyConfigEntries ∈ blocks := by simp [blocks]
      rw [eq_of_mem_keys hb hmem hconfig List.mem_cons_self]
      exact sorts_applyConfigEntries accepts
    · exact sorts_of_documents (blocks_document accepts block hb) hfree hconfig

theorem plain_of_documented (h : Documented key value)
    (hsorted : ∀ members, value = .object members → members.Pairwise (·.1 < ·.1)) :
    value.Plain p := by
  cases h with
  | intraOpNumThreads i => exact Json.plain_integer i
  | interOpNumThreads i => exact Json.plain_integer i
  | executionMode mode => exact Json.plain_string mode
  | graphOptimizationLevel lvl => exact Json.plain_string lvl
  | enableCpuMemArena b => exact Json.plain_boolean b
  | enableMemPattern b => exact Json.plain_boolean b
  | logSeverityLevel i => exact Json.plain_integer i
  | logid s => exact Json.plain_string s
  | enableProfiling => exact Json.plain_boolean true
  | profileFilePrefix s => exact Json.plain_string s
  | optimizedModelFilepath s => exact Json.plain_string s
  | freeDimensionOverrides members h =>
    refine Json.plain_object_iff.2 ⟨hsorted members rfl, ?_⟩
    intro e he
    obtain ⟨i, hi⟩ := h e he
    rw [hi]
    exact Json.plain_integer i
  | configEntries members h =>
    refine Json.plain_object_iff.2 ⟨hsorted members rfl, ?_⟩
    intro e he
    obtain ⟨s, hs⟩ := h e he
    rw [hs]
    exact Json.plain_string s

theorem plain_putMembers {j : Json} (h : j.Plain p) (he : ∀ e ∈ entries, e.2.Plain p) :
    (putMembers j entries).Plain p := by
  induction entries generalizing j with
  | nil => exact h
  | cons e entries ih =>
    rw [List.forall_mem_cons] at he
    exact ih (h.set e.1 he.1) he.2

/-- What is echoed of the session options has no number that could be lost. -/
theorem plain_applySessionOptions {input : Json} (h : input.Plain q) (accepts : Accepts) :
    (applySessionOptions accepts input).2.Plain p := by
  rw [applySessionOptions_eq]
  apply plain_putMembers Json.plain_empty
  intro e he
  obtain ⟨block, hb, he⟩ := List.mem_flatMap.1 he
  exact plain_of_documented (blocks_document accepts block hb input e he).2
    (blocks_sort accepts block hb input h e he)

theorem plain_inferReadbackValue (raw : Bytes) : (inferReadbackValue raw).Plain p := by
  rw [inferReadbackValue]
  split_ifs
  · exact Json.plain_boolean _
  · exact Json.plain_boolean _
  · cases stoll raw with
    | none => exact Json.plain_string _
    | some i => exact Json.plain_integer i
  · exact Json.plain_string _

theorem plain_parseOptionsFrom {out out' : Json} (h : out.Plain p)
    (hparse : parseOptionsFrom s fuel pos out = some out') : out'.Plain p := by
  induction fuel generalizing pos out with
  | zero => cases hparse
  | succ fuel ih =>
    rw [parseOptionsFrom] at hparse
    split at hparse
    · cases heq : findFrom s 0x3D pos with
      | none =>
        rw [heq] at hparse
        obtain rfl := Option.some.inj hparse
        exact h
      | some eq =>
        rw [heq] at hparse
        obtain ⟨k, _, hparse⟩ := Option.bind_eq_some_iff.1 hparse
        obtain ⟨v, _, hparse⟩ := Option.bind_eq_some_iff.1 hparse
        apply ih _ hparse
        split_ifs
        · exact h.set k (plain_inferReadbackValue v)
        · exact h
    · obtain rfl := Option.some.inj hparse
      exact h

theorem plain_cudaEcho (h : cudaEcho requested text = .ok j) : j.Plain p := by
  cases text with
  | none =>
    obtain rfl := Except.ok.inj h
    exact Json.plain_empty
  | some text =>
    obtain ⟨members, hparse⟩ := parseOptionsString_total (cString text)
    have hplain : (Json.object members).Plain p := plain_parseOptionsFrom Json.plain_empty hparse
    rw [cudaEcho, hparse] at h
    obtain rfl := Except.ok.inj h
    obtain ⟨hsorted, hmembers⟩ := Json.plain_object_iff.1 hplain
    exact Json.plain_object_iff.2
      ⟨hsorted.filter _, fun e he => hmembers e (List.mem_of_mem_filter he)⟩

variable {api : OrtApi} {option : Json} {built : BuiltOptions}

theorem plain_appendCuda (h : appendCuda api dumpFloat option = .ok j) : j.Plain p := by
  rw [appendCuda] at h
  cases hcuda : api.cuda with
  | none =>
    rw [hcuda] at h
    cases h
  | some cuda =>
    rw [hcuda] at h
    obtain ⟨updates, hupdates, haccepts⟩ := appendCudaSessionOptions_ok h
    dsimp only at h
    rw [appendCudaSessionOptions_eq haccepts hupdates] at h
    exact plain_cudaEcho h

theorem plain_appliedOptions (h : option.Plain q) (api : OrtApi) :
    (appliedOptions api option).2.Plain p := by
  rw [appliedOptions]
  split
  · rename_i members hf
    exact plain_applySessionOptions (h.find hf) _
  · exact Json.plain_empty

theorem plain_echoedOptions {applied : Json} (h : applied.Plain p) (paths : List Bytes) :
    (echoedOptions applied paths).Plain p := by
  have hcuda : (Json.object [(ascii "cuda", .boolean false)]).Plain p :=
    Json.plain_setMember Json.plain_empty (ascii "cuda") (Json.plain_boolean false)
  have hpaths : (Json.array (paths.map .string)).Plain p := by
    rw [Json.plain_array_iff]
    intro item hitem
    obtain ⟨path, _, rfl⟩ := List.mem_map.1 hitem
    exact Json.plain_string path
  rw [echoedOptions]
  split_ifs
  · exact hcuda
  · exact hcuda.set _ h
  · exact hcuda.set _ hpaths
  · exact (hcuda.set _ h).set _ hpaths

/-- Whatever was asked for, what is left of `_option` is a map without any number that could be
lost. -/
theorem plain_echo (h : option.Plain q) (hb : newOptions api dumpFloat option = .ok built) :
    built.echo.Plain p := by
  have hecho : (echoedOptions (appliedOptions api option).2 (extensionPaths option)).Plain p :=
    plain_echoedOptions (plain_appliedOptions h api) _
  obtain ⟨members, hmembers⟩ :=
    echoedOptions_object (appliedOptions api option).2 (extensionPaths option)
  rw [hmembers] at hecho
  cases hwants : wantsCuda api option with
  | false =>
    obtain ⟨_, rfl⟩ := (newOptions_ok hwants).1 hb
    rw [BuiltOptions.echo]
    dsimp only
    rw [hmembers, erase_keepShapes]
    exact (hecho.erase _).erase _
  | true =>
    rw [newOptions, hwants] at hb
    obtain ⟨_, _, hb⟩ := bind_eq_ok.1 hb
    obtain ⟨cuda, happend, hb⟩ := bind_eq_ok.1 hb
    obtain rfl := Except.ok.inj hb
    have hset := hecho.set (ascii "cuda") (plain_appendCuda happend)
    rw [Json.set] at hset
    rw [BuiltOptions.echo]
    dsimp only
    rw [hmembers, Json.set, erase_keepShapes]
    exact (hset.erase _).erase _

/-- A session shows its option without a number that could be lost, and its outputs have the types
that its model declares. -/
structure Session.Plain (p : Double → Prop) (session : Session) : Prop where
  option : session.option.Plain p
  outputs : session.outputs.map ValueInfo.element_type =
    session.ort_session.outputs.map ValueInfo.element_type

theorem Session.map_type {infos infos' : List ValueInfo}
    (h : infos.mapM (overrideShape dumpFloat option option_key) = .ok infos') :
    infos'.map ValueInfo.element_type = infos.map ValueInfo.element_type := by
  have hov := mapM_forall₂ h
  clear h
  induction hov with
  | nil => rfl
  | cons hi _ ih => rw [List.map_cons, List.map_cons, ih, (overrideShape_ok hi).2.1]

variable {session : Session} {lib : JsonLibrary} {env : OrtEnv} {rt : Runtime}

theorem Session.plain_of_init {key : SessionKey} {created_at : Int64} {ort_session : OrtSession}
    (hplain : option.Plain q) (hbuilt : newOptions api dumpFloat option = .ok built)
    (h : Session.init dumpFloat key built.option created_at ort_session = .ok session) :
    session.Plain p := by
  obtain ⟨hoption, hort⟩ := Session.option_of_init h
  refine ⟨?_, ?_⟩
  · rw [hoption]
    exact plain_echo hplain hbuilt
  · rw [Session.init] at h
    obtain ⟨inputs, _, h⟩ := bind_eq_ok.1 h
    obtain ⟨outputs, houtputs, h⟩ := bind_eq_ok.1 h
    obtain rfl := Except.ok.inj h
    exact Session.map_type houtputs

theorem load_plain (hplain : option.Plain q)
    (h : load ((rt.withOrt lib.dumpFloat env).loader lib) name version option key source =
      .ok session) : session.Plain p := by
  obtain ⟨built, ort_session, hbuilt, _, hinit⟩ := load_built h
  exact Session.plain_of_init hplain hbuilt hinit

theorem Session.Plain.touch (h : session.Plain p) (now : Int64) : (session.touch now).Plain p :=
  ⟨h.option, h.outputs⟩

end OnnxruntimeServer
