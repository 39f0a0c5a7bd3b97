import OnnxruntimeServer.SessionOptionsEcho

namespace OnnxruntimeServer
set_option autoImplicit true

/-- The member of `session_options` that a setter belongs to. -/
def SetterCall.member : SetterCall → Bytes
  | .setIntraOpNumThreads _ => ascii "intra_op_num_threads"
  | .setInterOpNumThreads _ => ascii "inter_op_num_threads"
  | .setExecutionMode _ => ascii "execution_mode"
  | .setGraphOptimizationLevel _ => ascii "graph_optimization_level"
  | .enableCpuMemArena | .disableCpuMemArena => ascii "enable_cpu_mem_arena"
  | .enableMemPattern | .disableMemPattern => ascii "enable_mem_pattern"
  | .setLogSeverityLevel _ => ascii "log_severity_level"
  | .setLogId _ => ascii "logid"
  | .enableProfiling _ => ascii "enable_profiling"
  | .setOptimizedModelFilePath _ => ascii "optimized_model_filepath"
  | .addFreeDimensionOverrideByName _ _ => ascii "free_dimension_overrides"
  | .addConfigEntry _ _ => ascii "config_entries"

theorem tryApply_call (h : c ∈ (tryApply accepts call entries).calls) : c = call := by
  rw [tryApply] at h
  split at h
  · exact List.mem_singleton.1 h
  · cases h

def Block.CallsOwn (block : Block) : Prop :=
  ∀ accepts input, ∀ call ∈ (block.run accepts input).calls, call.member ∈ block.keys

theorem callsOwn_one {body : Accepts → Json → Applied}
    (h : ∀ accepts value, ∀ call ∈ (body accepts value).calls, call.member = key) :
    (Block.one key body).CallsOwn := by
  intro accepts input call hc
  exact List.mem_singleton.2 (h accepts (input.member key) call hc)

theorem callsOwn_applyInt {setter : Int → SetterCall} (h : ∀ v, (setter v).member = key) :
    (applyInt key setter).CallsOwn := by
  apply callsOwn_one
  intro accepts value call hc
  split at hc
  · rw [tryApply_call hc, h]
  · cases hc

theorem callsOwn_applySwitch (he : enable.member = key) (hd : disable.member = key) :
    (applySwitch key enable disable).CallsOwn := by
  apply callsOwn_one
  intro accepts value call hc
  split at hc
  · rw [tryApply_call hc]
    split
    · exact he
    · exact hd
  · cases hc

theorem callsOwn_applyText {setter : Bytes → SetterCall} (h : ∀ v, (setter v).member = key) :
    (applyText key setter).CallsOwn := by
  apply callsOwn_one
  intro accepts value call hc
  split at hc
  · rw [tryApply_call hc, h]
  · cases hc

theorem callsOwn_applyExecutionMode : applyExecutionMode.CallsOwn := by
  apply callsOwn_one
  intro accepts value call hc
  split at hc
  · split at hc
    · rw [tryApply_call hc]
      rfl
    · cases hc
  · cases hc

theorem callsOwn_applyGraphOptimizationLevel : applyGraphOptimizationLevel.CallsOwn := by
  apply callsOwn_one
  intro accepts value call hc
  split at hc
  · split at hc
    · rw [tryApply_call hc]
      rfl
    · cases hc
  · cases hc

theorem callsOwn_applyEnableProfiling : applyEnableProfiling.CallsOwn := by
  intro accepts input call hc
  simp only [applyEnableProfiling] at hc
  split at hc
  · rw [tryApply_call hc]
    exact List.mem_cons_self
  · cases hc

theorem freeDimensionsFrom_member
    (h : call ∈ (freeDimensionsFrom accepts n members).calls) :
    call.member = ascii "free_dimension_overrides" := by
  induction members generalizing n with
  | nil => cases h
  | cons e members ih =>
    obtain ⟨name, value⟩ := e
    rw [freeDimensionsFrom] at h
    cases hv : value.integer? with
    | none =>
      rw [hv] at h
      exact ih h
    | some i =>
      simp only [hv] at h
      split at h
      · rcases List.mem_cons.1 h with rfl | h
        · rfl
        · exact ih h
      · exact ih h

theorem configEntriesFrom_member
    (h : call ∈ (configEntriesFrom accepts n store members).calls) :
    call.member = ascii "config_entries" := by
  induction members generalizing n store with
  | nil => cases h
  | cons e members ih =>
    obtain ⟨key, value⟩ := e
    rw [configEntriesFrom_cons] at h
    cases hv : configText value with
    | none =>
      rw [hv] at h
      exact ih h
    | some sv =>
      simp only [hv] at h
      split at h
      · rcases List.mem_cons.1 h with rfl | h
        · rfl
        · exact ih h
      · exact ih h

theorem callsOwn_applyFreeDimensionOverrides : applyFreeDimensionOverrides.CallsOwn := by
  apply callsOwn_one
  intro accepts value call hc
  split at hc
  · exact freeDimensionsFrom_member hc
  · cases hc

theorem callsOwn_applyConfigEntries : applyConfigEntries.CallsOwn := by
  apply callsOwn_one
  intro accepts value call hc
  split at hc
  · exact configEntriesFrom_member hc
  · cases hc

theorem blocks_callOwn : ∀ block ∈ blocks, block.CallsOwn := by
  simp only [blocks, List.forall_mem_cons]
  exact ⟨callsOwn_applyInt fun _ => rfl, callsOwn_applyInt fun _ => rfl,
    callsOwn_applyExecutionMode, callsOwn_applyGraphOptimizationLevel,
    callsOwn_applySwitch rfl rfl, callsOwn_applySwitch rfl rfl, callsOwn_applyInt fun _ => rfl,
    callsOwn_applyText fun _ => rfl, callsOwn_applyEnableProfiling,
    callsOwn_applyText fun _ => rfl, callsOwn_applyFreeDimensionOverrides,
    callsOwn_applyConfigEntries, fun block hb => by cases hb⟩

theorem applyConfigEntries_mem : applyConfigEntries ∈ blocks := by simp [blocks]

theorem Block.CallsOwn.filter_other {block : Block} (h : block.CallsOwn)
    (hk : key ∉ block.keys) (accepts : Accepts) (input : Json) :
    (block.run accepts input).calls.filter (fun c => c.member = key) = [] := by
  apply List.filter_eq_nil_iff.2
  intro call hc
  have hmem := h accepts input call hc
  simp only [decide_eq_true_eq]
  rintro rfl
  exact hk hmem

theorem Block.CallsOwn.filter_self {block : Block} (h : block.CallsOwn)
    (hk : block.keys = [key]) (accepts : Accepts) (input : Json) :
    (block.run accepts input).calls.filter (fun c => c.member = key) =
      (block.run accepts input).calls := by
  apply List.filter_eq_self.2
  intro call hc
  have hmem := h accepts input call hc
  rw [hk, List.mem_singleton] at hmem
  exact decide_eq_true hmem

theorem filter_calls {blocks : List Block} (accepts : Accepts) (input : Json)
    (hcalls : ∀ block ∈ blocks, block.CallsOwn)
    (hdisjoint : blocks.Pairwise fun a b => ∀ k ∈ a.keys, k ∉ b.keys)
    (hb : block ∈ blocks) (hk : block.keys = [key]) :
    (blocks.flatMap fun block => (block.run accepts input).calls).filter (fun c => c.member = key) =
      (block.run accepts input).calls := by
  have hown : key ∈ block.keys := hk ▸ List.mem_singleton_self key
  induction blocks with
  | nil => cases hb
  | cons first blocks ih =>
    rw [List.forall_mem_cons] at hcalls
    rw [List.pairwise_cons] at hdisjoint
    rw [List.flatMap_cons, List.filter_append]
    rcases List.mem_cons.1 hb with rfl | hb
    · have hrest : (blocks.flatMap fun block => (block.run accepts input).calls).filter
          (fun c => c.member = key) = [] := by
        rw [List.filter_flatMap]
        apply List.flatMap_eq_nil_iff.2
        intro other ho
        exact (hcalls.2 other ho).filter_other (hdisjoint.1 other ho key hown) accepts input
      rw [hcalls.1.filter_self hk, hrest, List.append_nil]
    · have hfirst : key ∉ first.keys := fun hkey => hdisjoint.1 block hb key hkey hown
      rw [hcalls.1.filter_other hfirst, List.nil_append, ih hcalls.2 hdisjoint.2 hb]

end OnnxruntimeServer
