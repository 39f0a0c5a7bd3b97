import OnnxruntimeServer.SessionOptions
import OnnxruntimeServer.IntegerInputs

namespace OnnxruntimeServer
set_option autoImplicit true

theorem putMembers_append (j : Json) (entries entries' : List (Bytes × Json)) :
    putMembers j (entries ++ entries') = putMembers (putMembers j entries) entries' :=
  List.foldl_append

theorem find_putMembers (j : Json) (entries : List (Bytes × Json)) (k : Bytes) :
    (putMembers j entries).find k =
      ((putMembers (.object []) entries).find k).or (j.find k) := by
  induction entries generalizing j with
  | nil => rfl
  | cons e entries ih =>
    have hcons : ∀ j, putMembers j (e :: entries) = putMembers (j.set e.1 e.2) entries := fun _ => rfl
    rw [hcons, hcons, ih, ih (Json.set _ _ _), Option.or_assoc, Json.find_set, Json.find_set]
    split <;> rfl

theorem mem_putMembers (h : e ∈ (putMembers j entries).members) :
    e ∈ j.members ∨ e ∈ entries := by
  induction entries generalizing j with
  | nil => exact .inl h
  | cons x entries ih =>
    rcases ih (j := j.set x.1 x.2) h with h | h
    · rcases Json.eq_or_mem_of_mem_setMember h with rfl | h
      · exact .inr List.mem_cons_self
      · exact .inl h
    · exact .inr (List.mem_cons_of_mem x h)

theorem find_putMembers_of_not_mem (h : ∀ e ∈ entries, e.1 ≠ k) :
    (putMembers (.object []) entries).find k = none := by
  induction entries with
  | nil => rfl
  | cons e entries ih =>
    have hcons : putMembers (.object []) (e :: entries) =
        putMembers ((Json.object []).set e.1 e.2) entries := rfl
    rw [List.forall_mem_cons] at h
    rw [hcons, find_putMembers, ih h.2, Json.find_set, if_neg h.1]
    rfl

theorem find_putMembers_one (key : Bytes) (value : Json) :
    (putMembers (.object []) [(key, value)]).find key = some value := by
  have hone : putMembers (.object []) [(key, value)] = (Json.object []).set key value := rfl
  rw [hone, Json.find_set, if_pos rfl]

def Block.Within (accepts : Accepts) (block : Block) : Prop :=
  ∀ input, ∀ e ∈ (block.run accepts input).entries, e.1 ∈ block.keys

/-- Whatever has under the keys of a block what the block has written is treated by the block like
its first input. -/
def Block.Stable (accepts : Accepts) (block : Block) : Prop :=
  ∀ input echo, (∀ k ∈ block.keys, echo.find k =
    (putMembers (.object []) (block.run accepts input).entries).find k) →
    block.run accepts echo = block.run accepts input

/-- The echo of several blocks has under the keys of each what that block has written. -/
theorem find_echo {accepts : Accepts} {blocks : List Block} (input : Json)
    (hwithin : ∀ block ∈ blocks, block.Within accepts)
    (hdisjoint : blocks.Pairwise fun a b => ∀ k ∈ a.keys, k ∉ b.keys)
    (hb : block ∈ blocks) (hk : k ∈ block.keys) :
    (putMembers (.object []) (blocks.flatMap fun block => (block.run accepts input).entries)).find k =
      (putMembers (.object []) (block.run accepts input).entries).find k := by
  induction blocks with
  | nil => cases hb
  | cons first blocks ih =>
    rw [List.forall_mem_cons] at hwithin
    rw [List.pairwise_cons] at hdisjoint
    rw [List.flatMap_cons, putMembers_append, find_putMembers]
    rcases List.mem_cons.1 hb with rfl | hb
    · have hnone : (putMembers (.object [])
          (blocks.flatMap fun block => (block.run accepts input).entries)).find k = none := by
        apply find_putMembers_of_not_mem
        intro e he
        obtain ⟨other, hother, he⟩ := List.mem_flatMap.1 he
        rintro rfl
        exact hdisjoint.1 other hother _ hk (hwithin.2 other hother input e he)
      rw [hnone, Option.none_or]
    · have hnone : (putMembers (.object []) (first.run accepts input).entries).find k = none := by
        apply find_putMembers_of_not_mem
        intro e he
        rintro rfl
        exact hdisjoint.1 block hb _ (hwithin.1 input e he) hk
      rw [ih hwithin.2 hdisjoint.2 hb, hnone, Option.or_none]

/-- A block that looks at one key is stable if it treats what it writes like what it has read. -/
theorem stable_one {accepts : Accepts} {key : Bytes} {body : Accepts → Json → Applied}
    (hnull : body accepts .null = nothingApplied)
    (h : ∀ v, body accepts v = nothingApplied ∨
      ∃ w, (body accepts v).entries = [(key, w)] ∧ body accepts w = body accepts v) :
    (Block.one key body).Stable accepts := by
  intro input echo hecho
  have hkey : echo.find key = (putMembers (.object [])
    (body accepts (input.member key)).entries).find key := hecho key List.mem_cons_self
  have hrun : ∀ j, (Block.one key body).run accepts j = body accepts (j.member key) := fun _ => rfl
  rw [hrun, hrun, Json.member, hkey]
  rcases h (input.member key) with hnothing | ⟨w, hentries, hw⟩
  · rw [hnothing]
    exact hnull
  · rw [hentries, find_putMembers_one]
    exact hw

theorem tryApply_cases (accepts : Accepts) (call : SetterCall) (entries : List (Bytes × Json)) :
    tryApply accepts call entries = nothingApplied ∨
      (tryApply accepts call entries).entries = entries := by
  rw [tryApply]
  split
  · exact .inr rfl
  · exact .inl rfl

theorem toInt_ofInt_wrap (hb : 0 < bits) (hb' : bits ≤ 64) (i : Int) :
    (Int64.ofInt (wrap true bits i)).toInt = wrap true bits i := by
  have htype : InType true bits (wrap true bits i) := inType_wrap hb true i
  have hpow : (2 : Int) ^ (bits - 1) ≤ 2 ^ 63 := pow_le_pow_right₀ (by decide) (by omega)
  have htype' : InType true 64 (wrap true bits i) :=
    ⟨le_trans (neg_le_neg hpow) htype.1, lt_of_lt_of_le htype.2 hpow⟩
  rw [Int64.toInt_ofInt]
  exact (wrap_eq_self_iff (by decide)).2 htype'

theorem wrap_wrap (hb : 0 < bits) (i : Int) : wrap true bits (wrap true bits i) = wrap true bits i :=
  (wrap_eq_self_iff hb).2 (inType_wrap hb true i)

theorem stable_applyInt (accepts : Accepts) (key : Bytes) (setter : Int → SetterCall) :
    (applyInt key setter).Stable accepts := by
  apply stable_one rfl
  intro v
  cases hv : v.integer? with
  | none => exact .inl rfl
  | some i =>
    refine (tryApply_cases accepts _ _).imp id fun hentries => ⟨_, hentries, ?_⟩
    simp only [Json.integer?, toInt_ofInt_wrap (show 0 < 32 by decide) (by decide),
      wrap_wrap (show 0 < 32 by decide)]

theorem stable_applySwitch (accepts : Accepts) (key : Bytes) (enable disable : SetterCall) :
    (applySwitch key enable disable).Stable accepts := by
  apply stable_one rfl
  intro v
  cases v with
  | boolean b => exact (tryApply_cases accepts _ _).imp id fun hentries => ⟨_, hentries, rfl⟩
  | _ => exact .inl rfl

theorem stable_applyText (accepts : Accepts) (key : Bytes) (setter : Bytes → SetterCall) :
    (applyText key setter).Stable accepts := by
  apply stable_one rfl
  intro v
  cases v with
  | string s => exact (tryApply_cases accepts _ _).imp id fun hentries => ⟨_, hentries, rfl⟩
  | _ => exact .inl rfl

theorem stable_applyExecutionMode (accepts : Accepts) : applyExecutionMode.Stable accepts := by
  apply stable_one rfl
  intro v
  cases v with
  | string s =>
    cases hmode : parseExecutionMode s with
    | none => exact .inl (by simp only [hmode])
    | some mode =>
      simp only [hmode]
      refine (tryApply_cases accepts _ _).imp id fun hentries => ⟨_, hentries, ?_⟩
      cases mode <;> rfl
  | _ => exact .inl rfl

theorem stable_applyGraphOptimizationLevel (accepts : Accepts) :
    applyGraphOptimizationLevel.Stable accepts := by
  apply stable_one rfl
  intro v
  cases v with
  | string s =>
    cases hlvl : parseGraphOptLevel s with
    | none => exact .inl (by simp only [hlvl])
    | some lvl =>
      simp only [hlvl]
      refine (tryApply_cases accepts _ _).imp id fun hentries => ⟨_, hentries, ?_⟩
      simp only [hlvl]
  | _ => exact .inl rfl

theorem stable_applyEnableProfiling (accepts : Accepts) :
    applyEnableProfiling.Stable accepts := by
  intro input echo hecho
  have henable := hecho (ascii "enable_profiling") List.mem_cons_self
  have hprefix := hecho (ascii "profile_file_prefix") (List.mem_cons_of_mem _ List.mem_cons_self)
  have hnone : echo.find (ascii "enable_profiling") = none →
      applyEnableProfiling.run accepts echo = nothingApplied := by
    intro hfind
    simp only [applyEnableProfiling, Json.member, hfind, Option.getD_none]
  have hnothing : applyEnableProfiling.run accepts input = nothingApplied →
      applyEnableProfiling.run accepts echo = applyEnableProfiling.run accepts input := by
    intro h
    rw [h] at henable ⊢
    exact hnone henable
  cases hv : input.member (ascii "enable_profiling") with
  | boolean b =>
    cases b with
    | false => exact hnothing (by simp only [applyEnableProfiling, hv])
    | true =>
      have hrun : ∀ j, j.member (ascii "enable_profiling") = .boolean true →
          applyEnableProfiling.run accepts j =
            tryApply accepts (.enableProfiling (cString (profileFilePrefix
              (j.member (ascii "profile_file_prefix")))))
              [(ascii "enable_profiling", .boolean true), (ascii "profile_file_prefix",
                .string (profileFilePrefix (j.member (ascii "profile_file_prefix"))))] := by
        intro j hj
        simp only [applyEnableProfiling, hj]
      have hcases := tryApply_cases accepts (.enableProfiling (cString (profileFilePrefix
        (input.member (ascii "profile_file_prefix")))))
        [(ascii "enable_profiling", .boolean true), (ascii "profile_file_prefix",
          .string (profileFilePrefix (input.member (ascii "profile_file_prefix"))))]
      rw [← hrun input hv] at hcases
      rcases hcases with h | hentries
      · exact hnothing h
      · rw [hentries] at henable hprefix
        have henable' : echo.member (ascii "enable_profiling") = .boolean true := by
          rw [Json.member, henable]
          rfl
        have hprefix' : echo.member (ascii "profile_file_prefix") =
            .string (profileFilePrefix (input.member (ascii "profile_file_prefix"))) := by
          rw [Json.member, hprefix]
          rfl
        rw [hrun echo henable', hrun input hv, hprefix']
        rfl
  | _ => exact hnothing (by simp only [applyEnableProfiling, hv])

theorem under_cases (key : Bytes) {applied : Applied} (h : applied.entries = [] → applied.calls = []) :
    applied.under key = nothingApplied ∨
      (applied.under key).entries = [(key, .object applied.entries)] := by
  rw [Applied.under]
  by_cases hnil : applied.entries = []
  · rw [if_pos hnil, h hnil]
    exact .inl rfl
  · rw [if_neg hnil]
    exact .inr rfl

theorem freeDimensionsFrom_calls (h : (freeDimensionsFrom accepts n members).entries = []) :
    (freeDimensionsFrom accepts n members).calls = [] := by
  induction members generalizing n with
  | nil => rfl
  | cons e members ih =>
    obtain ⟨name, value⟩ := e
    rw [freeDimensionsFrom] at h ⊢
    cases hv : value.integer? with
    | none =>
      rw [hv] at h
      exact ih h
    | some i =>
      simp only [hv] at h ⊢
      split at h
      · cases h
      · rename_i hnot
        rw [if_neg hnot]
        exact ih h

theorem freeDimensionsFrom_again (accepts : SetterCall → Bool) (n m : Nat)
    (members : List (Bytes × Json)) :
    freeDimensionsFrom (fun _ => accepts) n
      (freeDimensionsFrom (fun _ => accepts) m members).entries =
      freeDimensionsFrom (fun _ => accepts) m members := by
  induction members generalizing n m with
  | nil => rfl
  | cons e members ih =>
    obtain ⟨name, value⟩ := e
    rw [freeDimensionsFrom]
    cases hv : value.integer? with
    | none => exact ih n m
    | some i =>
      dsimp only
      split
      · rename_i hcall
        rw [freeDimensionsFrom]
        simp only [Json.integer?, toInt_ofInt_wrap (show 0 < 64 by decide) le_rfl,
          wrap_wrap (show 0 < 64 by decide), hcall, if_true, ih (n + 1) (m + 1)]
      · exact ih n (m + 1)

theorem stable_applyFreeDimensionOverrides (accepts : SetterCall → Bool) :
    applyFreeDimensionOverrides.Stable fun _ => accepts := by
  apply stable_one rfl
  intro v
  cases v with
  | object members =>
    refine (under_cases _ freeDimensionsFrom_calls).imp id fun hentries => ⟨_, hentries, ?_⟩
    exact congrArg (Applied.under _) (freeDimensionsFrom_again accepts 0 0 members)
  | _ => exact .inl rfl

theorem getSessionConfigEntry_snoc (store : List (Bytes × Bytes)) (key value k : Bytes) :
    getSessionConfigEntry (store ++ [(key, value)]) k =
      if key = k then some value else getSessionConfigEntry store k := by
  rw [getSessionConfigEntry, List.reverse_append, List.reverse_singleton, List.singleton_append]
  by_cases hk : key = k
  · simp [hk]
  · simp [hk, getSessionConfigEntry]

theorem cString_cString (s : Bytes) : cString (cString s) = cString s := by
  rw [cString, cString, List.takeWhile_takeWhile]
  simp

theorem configEntriesFrom_cons (accepts : Accepts) (n : Nat) (store : List (Bytes × Bytes))
    (key : Bytes) (value : Json) (rest : List (Bytes × Json)) :
    configEntriesFrom accepts n store ((key, value) :: rest) =
      match configText value with
      | none => configEntriesFrom accepts n store rest
      | some sv =>
        let call := SetterCall.addConfigEntry (cString key) (cString sv)
        if accepts n call then
          let more := configEntriesFrom accepts (n + 1)
            (store ++ [(cString key, cString sv)]) rest
          ⟨call :: more.calls, (key, .string (cString sv)) :: more.entries⟩
        else configEntriesFrom accepts (n + 1) store rest := by
  rw [configEntriesFrom]
  cases hv : configText value with
  | none => rfl
  | some sv =>
    dsimp only
    rw [getSessionConfigEntry_snoc, if_pos rfl]

theorem configEntriesFrom_calls (h : (configEntriesFrom accepts n store members).entries = []) :
    (configEntriesFrom accepts n store members).calls = [] := by
  induction members generalizing n store with
  | nil => rfl
  | cons e members ih =>
    obtain ⟨key, value⟩ := e
    rw [configEntriesFrom_cons] at h ⊢
    cases hv : configText value with
    | none =>
      rw [hv] at h
      exact ih h
    | some sv =>
      simp only [hv] at h ⊢
      split at h
      · cases h
      · rename_i hnot
        rw [if_neg hnot]
        exact ih h

theorem configEntriesFrom_again (accepts : SetterCall → Bool) (n m : Nat)
    (store store' : List (Bytes × Bytes)) (members : List (Bytes × Json)) :
    configEntriesFrom (fun _ => accepts) n store
      (configEntriesFrom (fun _ => accepts) m store' members).entries =
      configEntriesFrom (fun _ => accepts) m store' members := by
  induction members generalizing n m store store' with
  | nil => rfl
  | cons e members ih =>
    obtain ⟨key, value⟩ := e
    rw [configEntriesFrom_cons _ m]
    cases hv : configText value with
    | none => exact ih n m store store'
    | some sv =>
      dsimp only
      split
      · rename_i hcall
        rw [configEntriesFrom_cons]
        simp only [configText, cString_cString, hcall, if_true, ih (n + 1) (m + 1)]
      · exact ih n (m + 1) store store'

theorem stable_applyConfigEntries (accepts : SetterCall → Bool) :
    applyConfigEntries.Stable fun _ => accepts := by
  apply stable_one rfl
  intro v
  cases v with
  | object members =>
    refine (under_cases _ configEntriesFrom_calls).imp id fun hentries => ⟨_, hentries, ?_⟩
    exact congrArg (Applied.under _) (configEntriesFrom_again accepts 0 0 [] [] members)
  | _ => exact .inl rfl

/-- The documented session options and their types. -/
inductive Documented : Bytes → Json → Prop where
  | intraOpNumThreads (i : Int64) : Documented (ascii "intra_op_num_threads") (.integer i)
  | interOpNumThreads (i : Int64) : Documented (ascii "inter_op_num_threads") (.integer i)
  | executionMode (mode : Bytes) (h : mode = ascii "parallel" ∨ mode = ascii "sequential") :
    Documented (ascii "execution_mode") (.string mode)
  | graphOptimizationLevel (lvl : Bytes) (h : parseGraphOptLevel lvl ≠ none) :
    Documented (ascii "graph_optimization_level") (.string lvl)
  | enableCpuMemArena (b : Bool) : Documented (ascii "enable_cpu_mem_arena") (.boolean b)
  | enableMemPattern (b : Bool) : Documented (ascii "enable_mem_pattern") (.boolean b)
  | logSeverityLevel (i : Int64) : Documented (ascii "log_severity_level") (.integer i)
  | logid (s : Bytes) : Documented (ascii "logid") (.string s)
  | enableProfiling : Documented (ascii "enable_profiling") (.boolean true)
  | profileFilePrefix (s : Bytes) : Documented (ascii "profile_file_prefix") (.string s)
  | optimizedModelFilepath (s : Bytes) : Documented (ascii "optimized_model_filepath") (.string s)
  | freeDimensionOverrides (members : List (Bytes × Json))
    (h : ∀ e ∈ members, ∃ i, e.2 = .integer i) :
    Documented (ascii "free_dimension_overrides") (.object members)
  | configEntries (members : List (Bytes × Json)) (h : ∀ e ∈ members, ∃ s, e.2 = .string s) :
    Documented (ascii "config_entries") (.object members)

/-- A block writes documented values under its own keys. -/
def Block.Documents (accepts : Accepts) (block : Block) : Prop :=
  ∀ input, ∀ e ∈ (block.run accepts input).entries, e.1 ∈ block.keys ∧ Documented e.1 e.2

theorem mem_tryApply (h : e ∈ (tryApply accepts call entries).entries) : e ∈ entries := by
  rw [tryApply] at h
  split at h
  · exact h
  · cases h

theorem documents_one {accepts : Accepts} {key : Bytes} {body : Accepts → Json → Applied}
    (h : ∀ v, ∀ e ∈ (body accepts v).entries, e.1 = key ∧ Documented key e.2) :
    (Block.one key body).Documents accepts := by
  intro input e he
  obtain ⟨hkey, hdoc⟩ := h _ e he
  rw [hkey]
  exact ⟨List.mem_cons_self, hdoc⟩

theorem documents_applyInt {key : Bytes} (setter : Int → SetterCall)
    (h : ∀ i, Documented key (.integer i)) (accepts : Accepts) :
    (applyInt key setter).Documents accepts := by
  apply documents_one
  intro v e he
  cases hv : v.integer? with
  | none =>
    rw [hv] at he
    cases he
  | some i =>
    rw [hv] at he
    obtain rfl := List.mem_singleton.1 (mem_tryApply he)
    exact ⟨rfl, h _⟩

theorem documents_applySwitch {key : Bytes} (enable disable : SetterCall)
    (h : ∀ b, Documented key (.boolean b)) (accepts : Accepts) :
    (applySwitch key enable disable).Documents accepts := by
  apply documents_one
  intro v e he
  cases v with
  | boolean b =>
    obtain rfl := List.mem_singleton.1 (mem_tryApply he)
    exact ⟨rfl, h b⟩
  | _ => cases he

theorem documents_applyText {key : Bytes} (setter : Bytes → SetterCall)
    (h : ∀ s, Documented key (.string s)) (accepts : Accepts) :
    (applyText key setter).Documents accepts := by
  apply documents_one
  intro v e he
  cases v with
  | string s =>
    obtain rfl := List.mem_singleton.1 (mem_tryApply he)
    exact ⟨rfl, h s⟩
  | _ => cases he

theorem documents_applyExecutionMode (accepts : Accepts) :
    applyExecutionMode.Documents accepts := by
  apply documents_one
  intro v e he
  cases v with
  | string s =>
    cases hmode : parseExecutionMode s with
    | none =>
      simp only [hmode] at he
      cases he
    | some mode =>
      simp only [hmode] at he
      obtain rfl := List.mem_singleton.1 (mem_tryApply he)
      refine ⟨rfl, .executionMode _ ?_⟩
      cases mode with
      | ORT_PARALLEL => exact .inl rfl
      | ORT_SEQUENTIAL => exact .inr rfl
  | _ => cases he

theorem documents_applyGraphOptimizationLevel (accepts : Accepts) :
    applyGraphOptimizationLevel.Documents accepts := by
  apply documents_one
  intro v e he
  cases v with
  | string s =>
    cases hlvl : parseGraphOptLevel s with
    | none =>
      simp only [hlvl] at he
      cases he
    | some lvl =>
      simp only [hlvl] at he
      obtain rfl := List.mem_singleton.1 (mem_tryApply he)
      refine ⟨rfl, .graphOptimizationLevel s ?_⟩
      rw [hlvl]
      exact Option.some_ne_none lvl
  | _ => cases he

theorem documents_applyEnableProfiling (accepts : Accepts) :
    applyEnableProfiling.Documents accepts := by
  intro input e he
  have hkeys : applyEnableProfiling.keys =
      [ascii "enable_profiling", ascii "profile_file_prefix"] := rfl
  rw [applyEnableProfiling] at he
  dsimp only at he
  split at he
  · rcases List.mem_cons.1 (mem_tryApply he) with rfl | he
    · exact ⟨List.mem_cons_self, .enableProfiling⟩
    · obtain rfl := List.mem_singleton.1 he
      exact ⟨List.mem_cons_of_mem _ List.mem_cons_self, .profileFilePrefix _⟩
  · cases he

theorem mem_under {applied : Applied} (h : e ∈ (applied.under key).entries) :
    e = (key, .object applied.entries) := by
  rw [Applied.under] at h
  dsimp only at h
  split at h
  · cases h
  · exact List.mem_singleton.1 h

theorem freeDimensionsFrom_entries (h : e ∈ (freeDimensionsFrom accepts n members).entries) :
    ∃ i, e.2 = .integer i := by
  induction members generalizing n with
  | nil => cases h
  | cons x members ih =>
    obtain ⟨name, value⟩ := x
    rw [freeDimensionsFrom] at h
    cases hv : value.integer? with
    | none =>
      rw [hv] at h
      exact ih h
    | some i =>
      simp only [hv] at h
      split at h
      · rcases List.mem_cons.1 h with rfl | h
        · exact ⟨_, rfl⟩
        · exact ih h
      · exact ih h

theorem configEntriesFrom_entries (h : e ∈ (configEntriesFrom accepts n store members).entries) :
    ∃ s, e.2 = .string s := by
  induction members generalizing n store with
  | nil => cases h
  | cons x members ih =>
    obtain ⟨key, value⟩ := x
    rw [configEntriesFrom_cons] at h
    cases hv : configText value with
    | none =>
      rw [hv] at h
      exact ih h
    | some sv =>
      simp only [hv] at h
      split at h
      · rcases List.mem_cons.1 h with rfl | h
        · exact ⟨_, rfl⟩
        · exact ih h
      · exact ih h

theorem documents_applyFreeDimensionOverrides (accepts : Accepts) :
    applyFreeDimensionOverrides.Documents accepts := by
  apply documents_one
  intro v e he
  cases v with
  | object members =>
    obtain rfl := mem_under he
    exact ⟨rfl, .freeDimensionOverrides _ fun e he => freeDimensionsFrom_entries he⟩
  | _ => cases he

theorem documents_applyConfigEntries (accepts : Accepts) :
    applyConfigEntries.Documents accepts := by
  apply documents_one
  intro v e he
  cases v with
  | object members =>
    obtain rfl := mem_under he
    exact ⟨rfl, .configEntries _ fun e he => configEntriesFrom_entries he⟩
  | _ => cases he

theorem blocks_document (accepts : Accepts) : ∀ block ∈ blocks, block.Documents accepts := by
  simp only [blocks, List.forall_mem_cons]
  exact ⟨documents_applyInt _ .intraOpNumThreads _, documents_applyInt _ .interOpNumThreads _,
    documents_applyExecutionMode _, documents_applyGraphOptimizationLevel _,
    documents_applySwitch _ _ .enableCpuMemArena _, documents_applySwitch _ _ .enableMemPattern _,
    documents_applyInt _ .logSeverityLevel _, documents_applyText _ .logid _,
    documents_applyEnableProfiling _, documents_applyText _ .optimizedModelFilepath _,
    documents_applyFreeDimensionOverrides _, documents_applyConfigEntries _,
    fun block hb => by cases hb⟩

theorem blocks_stable (accepts : SetterCall → Bool) :
    ∀ block ∈ blocks, block.Stable fun _ => accepts := by
  simp only [blocks, List.forall_mem_cons]
  exact ⟨stable_applyInt _ _ _, stable_applyInt _ _ _, stable_applyExecutionMode _,
    stable_applyGraphOptimizationLevel _, stable_applySwitch _ _ _ _, stable_applySwitch _ _ _ _,
    stable_applyInt _ _ _, stable_applyText _ _ _, stable_applyEnableProfiling _,
    stable_applyText _ _ _, stable_applyFreeDimensionOverrides _, stable_applyConfigEntries _,
    fun block hb => by cases hb⟩

set_option maxRecDepth 4000 in
theorem blocks_disjoint : blocks.Pairwise fun a b => ∀ k ∈ a.keys, k ∉ b.keys := by
  decide

theorem applySessionOptions_eq (accepts : Accepts) (input : Json) :
    applySessionOptions accepts input =
      (blocks.flatMap fun block => (block.run accepts input).calls,
        putMembers (.object []) (blocks.flatMap fun block => (block.run accepts input).entries)) := by
  cases input <;> rfl

/-- The echo is treated as what it is the echo of, and holds documented values only. -/
theorem applySessionOptions_echo (accepts : SetterCall → Bool) (input : Json) :
    applySessionOptions (fun _ => accepts) (applySessionOptions (fun _ => accepts) input).2 =
        applySessionOptions (fun _ => accepts) input ∧
      ∀ e ∈ (applySessionOptions (fun _ => accepts) input).2.members, Documented e.1 e.2 := by
  have hecho : ∀ block ∈ blocks, block.run (fun _ => accepts)
      (applySessionOptions (fun _ => accepts) input).2 = block.run (fun _ => accepts) input := by
    intro block hb
    apply blocks_stable accepts block hb
    intro k hk
    rw [applySessionOptions_eq]
    exact find_echo input (fun b hb input e he => (blocks_document _ b hb input e he).1)
      blocks_disjoint hb hk
  constructor
  · generalize (applySessionOptions (fun _ => accepts) input).2 = echo at hecho
    rw [applySessionOptions_eq, applySessionOptions_eq _ input]
    apply Prod.ext
    · exact List.flatMap_congr fun b hb => congrArg Applied.calls (hecho b hb)
    · apply congrArg (putMembers _)
      exact List.flatMap_congr fun b hb => congrArg Applied.entries (hecho b hb)
  · intro e he
    rw [applySessionOptions_eq] at he
    rcases mem_putMembers he with he | he
    · cases he
    · obtain ⟨block, hb, he⟩ := List.mem_flatMap.1 he
      exact (blocks_document _ block hb input e he).2

end OnnxruntimeServer