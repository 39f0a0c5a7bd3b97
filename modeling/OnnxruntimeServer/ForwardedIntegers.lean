import OnnxruntimeServer.SetterCalls

namespace OnnxruntimeServer
set_option autoImplicit true

/-- Every call that is made for a member: those that go through where ORT takes them all. -/
def forwardedCalls (input : Json) (key : Bytes) : List SetterCall :=
  (applySessionOptions (fun _ _ => true) input).1.filter fun call => call.member = key

/-- The text of a value where an integer is written as it is. -/
def exactText (text : Json → Option Bytes) (value : Json) : Option Bytes :=
  match value.integer? with
  | some i => some (ascii (toString i))
  | none => text value

def passedTexts (text : Json → Option Bytes) (entries : List (Bytes × Json)) :
    List (Bytes × Bytes) :=
  entries.filterMap fun e => (text e.2).map fun s => (cString e.1, cString s)

def integerSetters : List (Bytes × (Int → SetterCall)) := [
  (ascii "intra_op_num_threads", .setIntraOpNumThreads),
  (ascii "inter_op_num_threads", .setInterOpNumThreads),
  (ascii "log_severity_level", .setLogSeverityLevel)]

/-- The CUDA options as they are passed on where every integer is written as it is. -/
def exactUpdates (dumpFloat : Double → Bytes) (cuda : Json) : List (Bytes × Bytes) :=
  match cuda with
  | .object members =>
    passedTexts (exactText fun v => (toProviderString dumpFloat v).toOption) members
  | cuda => cuda.integer?.toList.map fun i => (ascii "device_id", ascii (toString i))

/-- ORT is passed each integer of a request as it is in the request, or not at all. -/
structure IntegersUnchanged (dumpFloat : Double → Bytes) (session_options cuda : Json) : Prop where
  setters : ∀ e ∈ integerSetters, (forwardedCalls session_options e.1).Sublist
    ((session_options.member e.1).integer?.toList.map e.2)
  free_dimension_overrides :
    (forwardedCalls session_options (ascii "free_dimension_overrides")).Sublist
      ((session_options.member (ascii "free_dimension_overrides")).members.filterMap fun e =>
        e.2.integer?.map (.addFreeDimensionOverrideByName (cString e.1)))
  config_entries : (forwardedCalls session_options (ascii "config_entries")).Sublist
    ((passedTexts (exactText configText)
      (session_options.member (ascii "config_entries")).members).map fun e =>
        .addConfigEntry e.1 e.2)
  cuda : ∀ updates, cudaUpdates dumpFloat cuda = .ok updates →
    (passedUpdates updates).Sublist (exactUpdates dumpFloat cuda)

/-- Every integer is in the range of the type that it is passed on as. The CUDA options are only
passed on if each of them can be written as a text. -/
structure IntegersFit (dumpFloat : Double → Bytes) (session_options cuda : Json) : Prop where
  setters : ∀ e ∈ integerSetters, ∀ i,
    (session_options.member e.1).integer? = some i → InType true 32 i
  free_dimension_overrides :
    ∀ e ∈ (session_options.member (ascii "free_dimension_overrides")).members,
      ∀ i, e.2.integer? = some i → InType true 64 i
  config_entries : ∀ e ∈ (session_options.member (ascii "config_entries")).members,
    ∀ i, e.2.integer? = some i → InType true 64 i
  device : ∀ i, cuda.integer? = some i → InType true 32 i
  cuda : (∀ e ∈ cuda.members, e.2.isArray = true ∨ e.2.isObject = true →
      ∃ text, e.2.dump dumpFloat = .ok text) →
    ∀ e ∈ cuda.members, ∀ i, e.2.integer? = some i → InType true 64 i

/-- Lists that are collected from one list, with an entry in one where there is one in the other,
are sublists only if they are equal. -/
theorem filterMap_sublist_iff {f g : α → Option β} {xs : List α}
    (h : ∀ x ∈ xs, (f x).isSome = (g x).isSome) :
    (xs.filterMap f).Sublist (xs.filterMap g) ↔ ∀ x ∈ xs, f x = g x := by
  have hlength : (xs.filterMap f).length = (xs.filterMap g).length := by
    rw [List.length_filterMap_eq_countP, List.length_filterMap_eq_countP]
    exact List.countP_congr fun x hx => by rw [h x hx]
  constructor
  · intro hs
    have heq := hs.eq_of_length hlength
    clear hs hlength
    induction xs with
    | nil => exact List.forall_mem_nil _
    | cons x xs ih =>
      rw [List.forall_mem_cons] at h
      rw [List.forall_mem_cons]
      cases hf : f x with
      | none =>
        have hg : g x = none := by
          rw [← Option.not_isSome_iff_eq_none, ← h.1, hf]
          simp
        rw [List.filterMap_cons_none hf, List.filterMap_cons_none hg] at heq
        exact ⟨hg.symm, ih h.2 heq⟩
      | some y =>
        obtain ⟨z, hg⟩ : ∃ z, g x = some z := by
          rw [← Option.isSome_iff_exists, ← h.1, hf]
          rfl
        rw [List.filterMap_cons_some hf, List.filterMap_cons_some hg] at heq
        obtain ⟨rfl, htail⟩ := List.cons.inj heq
        exact ⟨hg.symm, ih h.2 htail⟩
  · intro heq
    rw [List.filterMap_congr heq]

theorem forwardedCalls_eq (input : Json) (hb : block ∈ blocks) (hk : block.keys = [key]) :
    forwardedCalls input key = (block.run (fun _ _ => true) input).calls := by
  rw [forwardedCalls, applySessionOptions_eq]
  exact filter_calls _ input blocks_callOwn blocks_disjoint hb hk

theorem forwarded_applyInt (setter : Int → SetterCall) (input : Json) :
    ((applyInt key setter).run (fun _ _ => true) input).calls =
      (input.member key).integer?.toList.map fun i => setter (wrap true 32 i) := by
  simp only [applyInt, Block.one]
  cases (input.member key).integer? with
  | none => rfl
  | some i => rfl

theorem forwarded_freeDimensions (n : Nat) (members : List (Bytes × Json)) :
    (freeDimensionsFrom (fun _ _ => true) n members).calls =
      members.filterMap fun e => e.2.integer?.map fun i =>
        .addFreeDimensionOverrideByName (cString e.1) (wrap true 64 i) := by
  induction members generalizing n with
  | nil => rfl
  | cons e members ih =>
    obtain ⟨name, value⟩ := e
    rw [freeDimensionsFrom, List.filterMap_cons]
    cases hv : value.integer? with
    | none => exact ih n
    | some i =>
      dsimp only [Option.map_some]
      rw [if_pos rfl, ih]

theorem forwarded_configEntries (n : Nat) (store : List (Bytes × Bytes))
    (members : List (Bytes × Json)) :
    (configEntriesFrom (fun _ _ => true) n store members).calls =
      (passedTexts configText members).map fun e => .addConfigEntry e.1 e.2 := by
  induction members generalizing n store with
  | nil => rfl
  | cons e members ih =>
    obtain ⟨key, value⟩ := e
    rw [configEntriesFrom_cons, passedTexts, List.filterMap_cons]
    cases hv : configText value with
    | none => exact ih n store
    | some sv =>
      dsimp only [Option.map_some]
      rw [if_pos rfl, ih]
      rfl

theorem singleton_sublist_iff : [x].Sublist [y] ↔ x = y := by
  constructor
  · intro h
    exact List.singleton_inj.1 (h.eq_of_length rfl)
  · rintro rfl
    exact List.Sublist.refl _

theorem setters_sublist_iff {setter : Int → SetterCall} (h : setter.Injective) (o : Option Int) :
    (o.toList.map fun i => setter (wrap true 32 i)).Sublist (o.toList.map setter) ↔
      ∀ i, o = some i → InType true 32 i := by
  cases o with
  | none => simp
  | some i =>
    simp only [Option.toList_some, List.map_cons, List.map_nil, singleton_sublist_iff, h.eq_iff,
      wrap_eq_self_iff (show 0 < 32 by decide), Option.some.injEq, forall_eq']

theorem freeDimensions_sublist_iff (members : List (Bytes × Json)) :
    (members.filterMap fun e => e.2.integer?.map fun i =>
        SetterCall.addFreeDimensionOverrideByName (cString e.1) (wrap true 64 i)).Sublist
      (members.filterMap fun e =>
        e.2.integer?.map (.addFreeDimensionOverrideByName (cString e.1))) ↔
      ∀ e ∈ members, ∀ i, e.2.integer? = some i → InType true 64 i := by
  rw [filterMap_sublist_iff]
  · apply forall₂_congr
    intro e _
    cases e.2.integer? with
    | none => simp
    | some i =>
      simp only [Option.map_some, Option.some.injEq,
        SetterCall.addFreeDimensionOverrideByName.injEq, true_and,
        wrap_eq_self_iff (show 0 < 64 by decide), forall_eq']
  · intro e _
    rw [Option.isSome_map, Option.isSome_map]

theorem cString_toString (i : Int) : cString (ascii (toString i)) = ascii (toString i) := by
  apply cString_text
  rw [Int.toString_eq_repr]
  cases i with
  | ofNat n =>
    have hrepr : ascii (Int.ofNat n).repr = ascii (toString n) := by rw [Nat.toString_eq_repr]; rfl
    rw [hrepr, isText_toString]
  | negSucc n =>
    have hrepr : ascii (Int.negSucc n).repr = ascii "-" ++ ascii (toString (n + 1)) := by
      simp [ascii, Int.repr]
    rw [hrepr, isText_append, isText_toString]
    rfl

theorem toString_wrap_iff (hb : 0 < bits) (i : Int) :
    ascii (toString (wrap true bits i)) = ascii (toString i) ↔ InType true bits i := by
  rw [← wrap_eq_self_iff hb]
  constructor
  · intro h
    have hn := congrArg numeral h
    rw [numeral_toString, numeral_toString] at hn
    exact Option.some.inj hn
  · intro h
    rw [h]

theorem texts_sublist_iff {text : Json → Option Bytes} {call : Bytes × Bytes → α}
    (htext : ∀ v i, v.integer? = some i → text v = some (ascii (toString (wrap true 64 i))))
    (hcall : call.Injective) (entries : List (Bytes × Json)) :
    ((passedTexts text entries).map call).Sublist
        ((passedTexts (exactText text) entries).map call) ↔
      ∀ e ∈ entries, ∀ i, e.2.integer? = some i → InType true 64 i := by
  rw [passedTexts, passedTexts, List.map_filterMap, List.map_filterMap, filterMap_sublist_iff]
  · apply forall₂_congr
    intro e _
    cases hi : e.2.integer? with
    | none => simp [exactText, hi]
    | some i =>
      simp only [exactText, hi, htext e.2 i hi, Option.map_some, Option.some.injEq, hcall.eq_iff,
        Prod.mk.injEq, true_and, cString_toString, forall_eq']
      exact toString_wrap_iff (by decide) i
  · intro e _
    cases hi : e.2.integer? with
    | none => simp [exactText, hi]
    | some i => simp [exactText, hi, htext e.2 i hi]

theorem configText_integer (h : v.integer? = some i) :
    configText v = some (ascii (toString (wrap true 64 i))) := by
  cases v with
  | integer _ | unsigned _ =>
    obtain rfl := Option.some.inj h
    rfl
  | _ => cases h

theorem toProviderString_integer (dumpFloat : Double → Bytes) (h : v.integer? = some i) :
    (toProviderString dumpFloat v).toOption = some (ascii (toString (wrap true 64 i))) := by
  cases v with
  | integer _ | unsigned _ =>
    obtain rfl := Option.some.inj h
    rfl
  | _ => cases h

theorem toProviderString_ok_iff (dumpFloat : Double → Bytes) (v : Json) :
    (∃ text, toProviderString dumpFloat v = .ok text) ↔
      (v.isArray = true ∨ v.isObject = true → ∃ text, v.dump dumpFloat = .ok text) := by
  cases v with
  | array items => exact ⟨fun h _ => h, fun h => h (.inl rfl)⟩
  | object members => exact ⟨fun h _ => h, fun h => h (.inr rfl)⟩
  | _ => exact iff_of_true ⟨_, rfl⟩ fun h => by simp [Json.isArray, Json.isObject] at h

theorem cudaUpdates_object {updates : List (Bytes × Bytes)}
    (h : cudaUpdates dumpFloat (.object members) = .ok updates) :
    passedUpdates updates =
      passedTexts (fun v => (toProviderString dumpFloat v).toOption) members := by
  have hall := mapM_forall₂ h
  clear h
  induction hall with
  | nil => rfl
  | @cons e update members updates he _ ih =>
    obtain ⟨text, ht, he⟩ := bind_eq_ok.1 he
    obtain rfl := Except.ok.inj he
    rw [passedUpdates, List.map_cons, passedTexts, List.filterMap_cons, ht]
    exact congrArg _ ih

theorem cudaUpdates_object_ok_iff (dumpFloat : Double → Bytes) (members : List (Bytes × Json)) :
    (∃ updates, cudaUpdates dumpFloat (.object members) = .ok updates) ↔
      ∀ e ∈ members, e.2.isArray = true ∨ e.2.isObject = true →
        ∃ text, e.2.dump dumpFloat = .ok text := by
  simp only [← toProviderString_ok_iff]
  constructor
  · rintro ⟨updates, h⟩ e he
    have hall := mapM_forall₂ h
    clear h
    induction hall with
    | nil => cases he
    | @cons e' update members updates he' _ ih =>
      rcases List.mem_cons.1 he with rfl | he
      · obtain ⟨text, ht, _⟩ := bind_eq_ok.1 he'
        exact ⟨text, ht⟩
      · exact ih he
  · intro h
    apply mapM_ok
    intro e he
    obtain ⟨text, ht⟩ := h e he
    exact ⟨(e.1, text), by rw [ht]; rfl⟩

theorem cuda_sublist_iff (dumpFloat : Double → Bytes) (cuda : Json) :
    (∀ updates, cudaUpdates dumpFloat cuda = .ok updates →
        (passedUpdates updates).Sublist (exactUpdates dumpFloat cuda)) ↔
      (∀ i, cuda.integer? = some i → InType true 32 i) ∧
        ((∀ e ∈ cuda.members, e.2.isArray = true ∨ e.2.isObject = true →
            ∃ text, e.2.dump dumpFloat = .ok text) →
          ∀ e ∈ cuda.members, ∀ i, e.2.integer? = some i → InType true 64 i) := by
  have hdevice : ∀ i : Int, (passedUpdates
      [(ascii "device_id", ascii (toString (wrap true 32 i)))]).Sublist
        [(ascii "device_id", ascii (toString i))] ↔ InType true 32 i := by
    intro i
    have hkey : cString (ascii "device_id") = ascii "device_id" := by decide
    rw [passedUpdates, List.map_singleton, singleton_sublist_iff, hkey, cString_toString,
      Prod.mk.injEq, toString_wrap_iff (by decide)]
    exact and_iff_right rfl
  cases cuda with
  | object members =>
    have htexts := texts_sublist_iff (fun _ _ => toProviderString_integer dumpFloat)
      (Function.injective_id (α := Bytes × Bytes)) members
    rw [List.map_id, List.map_id] at htexts
    have hnone : ∀ i, (Json.object members).integer? = some i → InType true 32 i := by
      intro i h
      cases h
    rw [and_iff_right hnone, Json.members, ← cudaUpdates_object_ok_iff, ← htexts]
    constructor
    · rintro h ⟨updates, hu⟩
      rw [← cudaUpdates_object hu]
      exact h updates hu
    · intro h updates hu
      rw [cudaUpdates_object hu]
      exact h ⟨updates, hu⟩
  | integer _ | unsigned _ =>
    simp only [cudaUpdates, exactUpdates, Json.integer?, Option.toList_some, List.map_cons,
      List.map_nil, Except.ok.injEq, forall_eq', hdevice, Option.some.injEq, Json.members,
      List.not_mem_nil, false_implies, implies_true, and_true]
  | _ =>
    simp [cudaUpdates, exactUpdates, Json.integer?, Json.members, passedUpdates]

theorem forwardedSetters_sublist_iff (input : Json) :
    (∀ e ∈ integerSetters, (forwardedCalls input e.1).Sublist
        ((input.member e.1).integer?.toList.map e.2)) ↔
      ∀ e ∈ integerSetters, ∀ i, (input.member e.1).integer? = some i → InType true 32 i := by
  have hone : ∀ (key : Bytes) (setter : Int → SetterCall), setter.Injective →
      applyInt key setter ∈ blocks →
      ((forwardedCalls input key).Sublist ((input.member key).integer?.toList.map setter) ↔
        ∀ i, (input.member key).integer? = some i → InType true 32 i) := by
    intro key setter hs hb
    rw [forwardedCalls_eq input hb rfl, forwarded_applyInt, setters_sublist_iff hs]
  have hintra := hone _ _ (fun _ _ h => SetterCall.setIntraOpNumThreads.inj h)
    (show applyIntraOpNumThreads ∈ blocks by simp [blocks])
  have hinter := hone _ _ (fun _ _ h => SetterCall.setInterOpNumThreads.inj h)
    (show applyInterOpNumThreads ∈ blocks by simp [blocks])
  have hlog := hone _ _ (fun _ _ h => SetterCall.setLogSeverityLevel.inj h)
    (show applyLogSeverityLevel ∈ blocks by simp [blocks])
  simp only [integerSetters, List.forall_mem_cons, hintra, hinter, hlog, List.not_mem_nil,
    false_implies, implies_true, and_true]

theorem forwardedFreeDimensions_sublist_iff (input : Json) :
    (forwardedCalls input (ascii "free_dimension_overrides")).Sublist
        ((input.member (ascii "free_dimension_overrides")).members.filterMap fun e =>
          e.2.integer?.map (.addFreeDimensionOverrideByName (cString e.1))) ↔
      ∀ e ∈ (input.member (ascii "free_dimension_overrides")).members,
        ∀ i, e.2.integer? = some i → InType true 64 i := by
  have hb : applyFreeDimensionOverrides ∈ blocks := by simp [blocks]
  rw [forwardedCalls_eq input hb rfl, ← freeDimensions_sublist_iff]
  simp only [applyFreeDimensionOverrides, Block.one]
  cases input.member (ascii "free_dimension_overrides") with
  | object members =>
    simp only [Applied.under, forwarded_freeDimensions]
    rfl
  | _ => rfl

theorem forwardedConfigEntries_sublist_iff (input : Json) :
    (forwardedCalls input (ascii "config_entries")).Sublist
        ((passedTexts (exactText configText)
          (input.member (ascii "config_entries")).members).map fun e =>
            .addConfigEntry e.1 e.2) ↔
      ∀ e ∈ (input.member (ascii "config_entries")).members,
        ∀ i, e.2.integer? = some i → InType true 64 i := by
  have hcall : (fun e : Bytes × Bytes => SetterCall.addConfigEntry e.1 e.2).Injective := by
    intro e e' h
    obtain ⟨h₁, h₂⟩ := SetterCall.addConfigEntry.inj h
    exact Prod.ext h₁ h₂
  rw [forwardedCalls_eq input applyConfigEntries_mem rfl,
    ← texts_sublist_iff (fun _ _ => configText_integer) hcall]
  simp only [applyConfigEntries, Block.one]
  cases input.member (ascii "config_entries") with
  | object members =>
    simp only [Applied.under, forwarded_configEntries]
    rfl
  | _ => rfl

/-- Every integer that is passed on is the one of the request exactly where each is in the range of
the type it is passed on as. -/
theorem integers_unchanged_iff (dumpFloat : Double → Bytes) (session_options cuda : Json) :
    IntegersUnchanged dumpFloat session_options cuda ↔
      IntegersFit dumpFloat session_options cuda := by
  have hsetters := forwardedSetters_sublist_iff session_options
  have hfree := forwardedFreeDimensions_sublist_iff session_options
  have hconfig := forwardedConfigEntries_sublist_iff session_options
  have hcuda := cuda_sublist_iff dumpFloat cuda
  constructor
  · intro h
    exact ⟨hsetters.1 h.setters, hfree.1 h.free_dimension_overrides, hconfig.1 h.config_entries,
      (hcuda.1 h.cuda).1, (hcuda.1 h.cuda).2⟩
  · intro h
    exact ⟨hsetters.2 h.setters, hfree.2 h.free_dimension_overrides, hconfig.2 h.config_entries,
      hcuda.2 ⟨h.device, h.cuda⟩⟩

def manyThreads : Json := .object [(ascii "intra_op_num_threads", .unsigned 4294967297)]

def unlimitedMemory : Json := .object [(ascii "gpu_mem_limit", .unsigned 18446744073709551615)]

theorem integers_changed :
    forwardedCalls manyThreads (ascii "intra_op_num_threads") = [.setIntraOpNumThreads 1] ∧
      ¬ IntegersUnchanged (fun _ => []) manyThreads .null ∧
      cudaUpdates (fun _ => []) unlimitedMemory =
        .ok [(ascii "gpu_mem_limit", ascii "-1")] ∧
      ¬ IntegersUnchanged (fun _ => []) .null unlimitedMemory := by
  have hvalue : (manyThreads.member (ascii "intra_op_num_threads")).integer? =
      some 4294967297 := by
    simp [manyThreads, Json.member, Json.find, Json.integer?]
  have hcalls : forwardedCalls manyThreads (ascii "intra_op_num_threads") =
      [.setIntraOpNumThreads 1] := by
    have hb : applyIntraOpNumThreads ∈ blocks := by simp [blocks]
    rw [forwardedCalls_eq manyThreads hb rfl, applyIntraOpNumThreads, forwarded_applyInt, hvalue]
    decide
  have hupdates : cudaUpdates (fun _ => []) unlimitedMemory =
      .ok [(ascii "gpu_mem_limit", ascii "-1")] := by
    have hlimit : (Json.unsigned 18446744073709551615).integer? = some 18446744073709551615 := rfl
    have hwrap : wrap true 64 18446744073709551615 = -1 := by decide
    simp only [cudaUpdates, unlimitedMemory, toProviderString, hlimit, hwrap, List.mapM_cons,
      List.mapM_nil, bind, Except.bind, pure, Except.pure]
    rfl
  refine ⟨hcalls, fun h => ?_, hupdates, fun h => ?_⟩
  · have hs := h.setters (ascii "intra_op_num_threads", .setIntraOpNumThreads) List.mem_cons_self
    dsimp only at hs
    rw [hcalls, hvalue] at hs
    exact absurd (SetterCall.setIntraOpNumThreads.inj (singleton_sublist_iff.1 hs)) (by simp)
  · have hs := h.cuda _ hupdates
    revert hs
    decide

end OnnxruntimeServer
