import OnnxruntimeServer.SetterCalls

namespace OnnxruntimeServer
set_option autoImplicit true

/-- The config entries that calls have stored, in order. -/
def configStore (calls : List SetterCall) : List (Bytes × Bytes) :=
  calls.filterMap fun
    | .addConfigEntry key sv => some (key, sv)
    | _ => none

/-- The entries of `config_entries` that ORT takes, with the texts that they are passed on as. -/
def taken (accepts : Accepts) (n : Nat) : List (Bytes × Json) → List (Bytes × Bytes)
  | [] => []
  | (key, value) :: rest =>
    match configText value with
    | none => taken accepts n rest
    | some sv =>
      if accepts n (.addConfigEntry (cString key) (cString sv)) then
        (key, sv) :: taken accepts (n + 1) rest
      else taken accepts (n + 1) rest

def passed (e : Bytes × Bytes) : Bytes × Bytes := (cString e.1, cString e.2)

/-- Every entry of the echo is what ORT holds for its key in the end. -/
def ConfigEchoStored (accepts : Accepts) (input : Json) : Prop :=
  ∀ members, (applySessionOptions accepts input).2.find (ascii "config_entries") =
      some (.object members) → ∀ e ∈ members, ∃ s, e.2 = .string s ∧
    getSessionConfigEntry (configStore (applySessionOptions accepts input).1) (cString e.1) = some s

theorem configEntriesFrom_eq (accepts : Accepts) (n : Nat) (store : List (Bytes × Bytes))
    (members : List (Bytes × Json)) : configEntriesFrom accepts n store members =
      ⟨(taken accepts n members).map fun e => .addConfigEntry (cString e.1) (cString e.2),
        (taken accepts n members).map fun e => (e.1, .string (cString e.2))⟩ := by
  induction members generalizing n store with
  | nil => rfl
  | cons e members ih =>
    obtain ⟨key, value⟩ := e
    rw [configEntriesFrom_cons, taken]
    cases hv : configText value with
    | none => exact ih n store
    | some sv =>
      dsimp only
      by_cases hcall : accepts n (.addConfigEntry (cString key) (cString sv)) = true
      · rw [if_pos hcall, if_pos hcall, ih]
        rfl
      · rw [if_neg hcall, if_neg hcall, ih]

theorem found_iff (store : List (Bytes × Bytes)) :
    (∀ e ∈ store, getSessionConfigEntry store e.1 = some e.2) ↔
      ∀ a ∈ store, ∀ b ∈ store, a.1 = b.1 → a.2 = b.2 := by
  constructor
  · intro h a ha b hb hab
    have hboth := h a ha
    rw [hab, h b hb] at hboth
    exact (Option.some.inj hboth).symm
  · intro h e he
    rw [getSessionConfigEntry]
    cases hf : store.reverse.find? (fun x => decide (x.1 = e.1)) with
    | none =>
      have hnone := List.find?_eq_none.1 hf e (List.mem_reverse.2 he)
      simp at hnone
    | some x =>
      have hx := List.mem_reverse.1 (List.mem_of_find?_eq_some hf)
      have hkey : x.1 = e.1 := by simpa using List.find?_some hf
      rw [Option.map_some, h x hx e he hkey]

theorem configStore_filter (calls : List SetterCall) :
    configStore (calls.filter fun call => call.member = ascii "config_entries") =
      configStore calls := by
  rw [configStore, configStore, List.filterMap_filter]
  apply List.filterMap_congr
  intro call _
  cases call with
  | addConfigEntry key value => rfl
  | _ => exact ite_self none

/-- All that is stored is stored by the last block. -/
theorem configStore_applySessionOptions (accepts : Accepts) (input : Json) :
    configStore (applySessionOptions accepts input).1 =
      configStore (applyConfigEntries.run accepts input).calls := by
  rw [← configStore_filter, applySessionOptions_eq,
    filter_calls accepts input blocks_callOwn blocks_disjoint applyConfigEntries_mem rfl]

theorem configStore_taken (entries : List (Bytes × Bytes)) :
    configStore (entries.map fun e => .addConfigEntry (cString e.1) (cString e.2)) =
      entries.map passed := by
  induction entries with
  | nil => rfl
  | cons e entries ih =>
    rw [List.map_cons, List.map_cons, ← ih]
    rfl

theorem stored_under_iff (key : Bytes) (entries : List (Bytes × Bytes)) :
    (let applied : Applied :=
        ⟨entries.map fun e => .addConfigEntry (cString e.1) (cString e.2),
          entries.map fun e => (e.1, .string (cString e.2))⟩
      ∀ members, (putMembers (.object []) (applied.under key).entries).find key =
        some (.object members) → ∀ e ∈ members, ∃ s, e.2 = .string s ∧
          getSessionConfigEntry (configStore (applied.under key).calls) (cString e.1) = some s) ↔
      ∀ a ∈ entries, ∀ b ∈ entries, cString a.1 = cString b.1 → cString a.2 = cString b.2 := by
  have hfound := found_iff (entries.map passed)
  simp only [List.forall_mem_map, passed] at hfound
  rw [← hfound]
  dsimp only [Applied.under]
  rw [configStore_taken]
  by_cases hnil : entries = []
  · subst hnil
    refine iff_of_true ?_ (by simp)
    intro members h
    cases h
  · rw [if_neg (by simpa using hnil), find_putMembers_one]
    constructor
    · intro h a ha
      obtain ⟨s, hs, hget⟩ := h _ rfl _ (List.mem_map_of_mem ha)
      rw [Json.string.inj hs]
      exact hget
    · rintro h _ ⟨⟩ e he
      obtain ⟨a, ha, rfl⟩ := List.mem_map.1 he
      exact ⟨_, rfl, h a ha⟩

/-- What is echoed of the config entries is what ORT holds in the end, exactly when no two of the
entries that it takes have one key and two values for it. -/
theorem config_echo_stored_iff (accepts : Accepts) (input : Json) : ConfigEchoStored accepts input ↔
    ∀ members, input.member (ascii "config_entries") = .object members →
      ∀ a ∈ taken accepts 0 members, ∀ b ∈ taken accepts 0 members,
        cString a.1 = cString b.1 → cString a.2 = cString b.2 := by
  have hfind : (applySessionOptions accepts input).2.find (ascii "config_entries") =
      (putMembers (.object []) (applyConfigEntries.run accepts input).entries).find
        (ascii "config_entries") := by
    rw [applySessionOptions_eq]
    exact find_echo input (fun b hb input e he => (blocks_document _ b hb input e he).1)
      blocks_disjoint applyConfigEntries_mem List.mem_cons_self
  rw [ConfigEchoStored, configStore_applySessionOptions, hfind]
  simp only [applyConfigEntries, Block.one]
  cases hv : input.member (ascii "config_entries") with
  | object members =>
    dsimp only
    rw [configEntriesFrom_eq, stored_under_iff]
    constructor
    · intro h members' heq
      rw [← Json.object.inj heq]
      exact h
    · exact fun h => h members rfl
  | _ =>
    refine iff_of_true ?_ ?_
    · intro members h
      cases h
    · intro members h
      cases h

def collidingEntries : Json := .object [(ascii "config_entries", .object [
  (ascii "a\x00b", .string (ascii "1")), (ascii "a\x00c", .string (ascii "2"))])]

theorem config_echo_not_stored : ¬ ConfigEchoStored (fun _ _ => true) collidingEntries := by
  intro h
  obtain ⟨s, hs, hget⟩ := h _ rfl (ascii "a\x00b", .string (ascii "1")) List.mem_cons_self
  obtain rfl := Json.string.inj hs
  exact absurd hget (by decide)

end OnnxruntimeServer
