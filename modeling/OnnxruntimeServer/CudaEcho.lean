import OnnxruntimeServer.CudaOptions

namespace OnnxruntimeServer
set_option autoImplicit true

theorem isNumericText_iff (raw : Bytes) :
    isNumericText raw = true ↔ raw = [0x2D] ∨ ∃ n, numeral raw = some n := by
  constructor
  · intro h
    cases raw with
    | nil => cases h
    | cons c raw =>
      rw [isNumericText, Bool.and_eq_true, Bool.or_eq_true, beq_iff_eq, List.all_eq_true] at h
      obtain ⟨rfl | hc, hraw⟩ := h
      · cases raw with
        | nil => exact .inl rfl
        | cons d raw =>
          rw [List.forall_mem_cons] at hraw
          exact .inr ⟨_, numeral_minus hraw.1 hraw.2⟩
      · exact .inr ⟨_, numeral_digits hc hraw⟩
  · rintro (rfl | ⟨n, hn⟩)
    · rfl
    · rcases numeral_eq_some hn with ⟨c, s, rfl, hc, hs, _⟩ | ⟨c, s, rfl, hc, hs, _⟩
      · rw [isNumericText, hc, List.all_eq_true.2 hs, Bool.or_true]
        rfl
      · rw [isNumericText, List.all_cons, hc, List.all_eq_true.2 hs]
        rfl

/-- Both inferences read a text as the boolean or the integer that it denotes, and otherwise as
itself. -/
theorem inferences_agree (raw : Bytes) : inferReadbackValue raw = inferValue raw ∧
    inferValue raw = if raw = ascii "true" then .boolean true
      else if raw = ascii "false" then .boolean false
      else match numeral raw with
        | some n => if fitsInt64 n then .integer (.ofInt n) else .string raw
        | none => .string raw := by
  refine ⟨?_, inferValue_eq raw⟩
  rw [inferValue_eq, inferReadbackValue]
  congr 2
  cases hn : numeral raw with
  | some n =>
    have hnumeric : isNumericText raw = true := (isNumericText_iff raw).2 (.inr ⟨n, hn⟩)
    rw [if_pos hnumeric, stoll_eq hn]
    by_cases hfits : fitsInt64 n
    · simp only [if_pos hfits]
    · simp only [if_neg hfits]
  | none =>
    by_cases hminus : raw = [0x2D]
    · subst hminus
      rfl
    · have hnumeric : ¬ isNumericText raw = true := by
        rw [isNumericText_iff]
        rintro (h | ⟨n, h⟩)
        · exact hminus h
        · rw [hn] at h
          cases h
      rw [if_neg hnumeric]

structure ProviderOption where
  key : Bytes
  value : Bytes
  key_ne_nil : key ≠ []
  key_chars : 0x3D ∉ key ∧ 0x3B ∉ key
  value_chars : 0x3B ∉ value

structure ProviderOptions where
  entries : List ProviderOption
  distinct : (entries.map ProviderOption.key).Nodup

namespace ProviderOption

def text (o : ProviderOption) : Bytes := o.key ++ 0x3D :: o.value

def member (o : ProviderOption) : Bytes × Json := (o.key, inferReadbackValue o.value)

def put (out : Json) (o : ProviderOption) : Json := out.set o.key (inferReadbackValue o.value)

end ProviderOption

def ProviderOptions.text (options : ProviderOptions) (final : Bool) : Bytes :=
  [0x3B].intercalate (options.entries.map ProviderOption.text) ++ if final then [0x3B] else []

theorem findIdx?_stop {p : α → Bool} {w : List α} (hw : ∀ a ∈ w, p a = false) (s : List α) :
    (w ++ s).findIdx? p = (s.findIdx? p).map (w.length + ·) := by
  rw [List.findIdx?_append, List.findIdx?_eq_none_iff.2 hw, Option.none_or]
  simp only [Nat.add_comm]

theorem findFrom_bounds (h : findFrom s c pos = some i) : pos ≤ i ∧ i < s.length := by
  obtain ⟨n, hn, rfl⟩ := Option.map_eq_some_iff.1 h
  have hlt := (List.findIdx?_eq_some_iff_findIdx_eq.1 hn).1
  rw [List.length_drop] at hlt
  omega

theorem substr_of_le {s : Bytes} (h : pos ≤ s.length) (n : Nat) :
    substr s pos n = some ((s.drop pos).take n) := if_pos h

/-- The loop goes on behind a separator that it has found, or ends. -/
theorem parseOptionsFrom_total (hf : s.length < pos + fuel) (hf' : 0 < fuel)
    (members : List (Bytes × Json)) :
    ∃ members', parseOptionsFrom s fuel pos (.object members) = some (.object members') := by
  induction fuel generalizing pos members with
  | zero => cases hf'
  | succ fuel ih =>
    rw [parseOptionsFrom]
    by_cases hpos : pos < s.length
    · rw [if_pos hpos]
      cases heq : findFrom s 0x3D pos with
      | none => exact ⟨members, rfl⟩
      | some eq =>
        have hbounds := findFrom_bounds heq
        have hsc : pos ≤ (findFrom s 0x3B eq).getD s.length := by
          cases hsc : findFrom s 0x3B eq with
          | none => exact hpos.le
          | some sc => exact hbounds.1.trans (findFrom_bounds hsc).1
        simp only [substr_of_le hpos.le, substr_of_le (Nat.succ_le_of_lt hbounds.2),
          Option.bind_eq_bind, Option.bind_some]
        split
        · exact ih (by omega) (by omega) _
        · exact ih (by omega) (by omega) _
    · rw [if_neg hpos]
      exact ⟨members, rfl⟩

theorem findFrom_append (pre t : Bytes) (c : UInt8) :
    findFrom (pre ++ t) c pre.length = (t.findIdx? (· == c)).map (pre.length + ·) := by
  rw [findFrom, List.drop_left]

theorem substr_append (pre w t : Bytes) : substr (pre ++ (w ++ t)) pre.length w.length = some w := by
  rw [substr_of_le (by simp), List.drop_left, List.take_left]

theorem parseOptionsFrom_entry (pre : Bytes) (o : ProviderOption) (rest : Bytes)
    (hrest : ∀ c ∈ rest.head?, c = 0x3B) (fuel : Nat) (out : Json) :
    parseOptionsFrom (pre ++ (o.text ++ rest)) (fuel + 1) pre.length out =
      parseOptionsFrom (pre ++ (o.text ++ rest)) fuel (pre.length + o.text.length + 1)
        (out.set o.key (inferReadbackValue o.value)) := by
  have hkey : ∀ c ∈ o.key, (c == 0x3D) = false := by
    intro c hc
    rw [beq_eq_false_iff_ne]
    rintro rfl
    exact o.key_chars.1 hc
  have hvalue : ∀ c ∈ 0x3D :: o.value, (c == 0x3B) = false := by
    intro c hc
    rw [beq_eq_false_iff_ne]
    rintro rfl
    exact o.value_chars (List.mem_of_ne_of_mem (by decide) hc)
  have hs : pre ++ (o.text ++ rest) = pre ++ (o.key ++ 0x3D :: (o.value ++ rest)) := by
    rw [ProviderOption.text, List.append_assoc, List.cons_append]
  have hs' : pre ++ (o.text ++ rest) = (pre ++ o.key) ++ (0x3D :: o.value ++ rest) := by
    rw [hs, List.append_assoc, List.cons_append]
  have hs'' : pre ++ (o.text ++ rest) = (pre ++ o.key ++ [0x3D]) ++ (o.value ++ rest) := by
    rw [hs', List.append_assoc _ [0x3D], List.cons_append, List.singleton_append]
  have hlen : (pre ++ o.key).length = pre.length + o.key.length := List.length_append
  have hpos : pre.length < (pre ++ (o.text ++ rest)).length := by
    rw [hs]
    simp only [List.length_append, List.length_cons]
    omega
  have heq : findFrom (pre ++ (o.text ++ rest)) 0x3D pre.length =
      some (pre.length + o.key.length) := by
    rw [hs, findFrom_append, findIdx?_stop hkey, List.findIdx?_cons, if_pos (by rfl)]
    rfl
  have hsc : (findFrom (pre ++ (o.text ++ rest)) 0x3B (pre.length + o.key.length)).getD
      (pre ++ (o.text ++ rest)).length = pre.length + o.text.length := by
    rw [← hlen, hs', findFrom_append, findIdx?_stop hvalue, ProviderOption.text]
    cases rest with
    | nil => simp [Nat.add_assoc]
    | cons c rest =>
      have hc : (c == 0x3B) = true := beq_iff_eq.2 (hrest c rfl)
      simp [List.findIdx?_cons, hc, Nat.add_assoc]
  have hk : substr (pre ++ (o.text ++ rest)) pre.length (pre.length + o.key.length - pre.length) =
      some o.key := by
    rw [hs, Nat.add_sub_cancel_left]
    exact substr_append pre o.key _
  have hv : substr (pre ++ (o.text ++ rest)) (pre.length + o.key.length + 1)
      (pre.length + o.text.length - (pre.length + o.key.length) - 1) = some o.value := by
    have hlen' : (pre ++ o.key ++ [0x3D]).length = pre.length + o.key.length + 1 := by
      rw [List.length_append, hlen]
      rfl
    have hdiff : pre.length + o.text.length - (pre.length + o.key.length) - 1 = o.value.length := by
      rw [ProviderOption.text, List.length_append, List.length_cons]
      omega
    rw [hs'', ← hlen', hdiff]
    exact substr_append _ o.value rest
  rw [parseOptionsFrom, if_pos hpos, heq]
  simp only [hsc, hk, hv, Option.bind_eq_bind, Option.bind_some, if_pos o.key_ne_nil]

theorem parseOptionsFrom_end (h : ∀ c ∈ s.drop pos, c ≠ 0x3D) (fuel : Nat) (out : Json) :
    parseOptionsFrom s (fuel + 1) pos out = some out := by
  rw [parseOptionsFrom]
  split
  · have hnone : findFrom s 0x3D pos = none := by
      rw [findFrom, List.findIdx?_eq_none_iff.2, Option.map_none]
      intro c hc
      exact beq_eq_false_iff_ne.2 (h c hc)
    rw [hnone]
  · rfl

theorem parseOptionsFrom_text (pre : Bytes) (entries : List ProviderOption) (final : Bool)
    (hf : entries.length < fuel) (out : Json) :
    parseOptionsFrom (pre ++ ([0x3B].intercalate (entries.map ProviderOption.text) ++
      if final then [0x3B] else [])) fuel pre.length out =
      some (entries.foldl ProviderOption.put out) := by
  have hend : ∀ c ∈ (if final then [0x3B] else [] : Bytes), c = 0x3B := by
    intro c hc
    cases final with
    | true => exact List.mem_singleton.1 hc
    | false => cases hc
  generalize (if final then [0x3B] else [] : Bytes) = tail at hend
  have hbehind : ∀ (s : Bytes) (pos : Nat), s.drop pos <:+ tail → ∀ c ∈ s.drop pos, c ≠ 0x3D := by
    intro s pos hsuffix c hc
    rw [hend c (hsuffix.subset hc)]
    decide
  obtain ⟨fuel, rfl⟩ : ∃ n, fuel = n + 1 := ⟨fuel - 1, by omega⟩
  induction entries generalizing pre fuel out with
  | nil =>
    apply parseOptionsFrom_end
    apply hbehind
    simp
  | cons o entries ih =>
    obtain ⟨fuel, rfl⟩ : ∃ n, fuel = n + 1 := ⟨fuel - 1, by rw [List.length_cons] at hf; omega⟩
    cases entries with
    | nil =>
      have hhead : ∀ c ∈ tail.head?, c = 0x3B := fun c hc => hend c (List.mem_of_mem_head? hc)
      rw [List.map_singleton, List.intercalate_singleton, parseOptionsFrom_entry pre o tail hhead]
      apply parseOptionsFrom_end
      apply hbehind
      have hdrop : (pre ++ (o.text ++ tail)).drop (pre.length + o.text.length + 1) = tail.drop 1 := by
        rw [← List.append_assoc, ← List.length_append, List.drop_length_add_append]
      rw [hdrop]
      exact List.drop_suffix 1 tail
    | cons o' entries =>
      have hsplit : [0x3B].intercalate ((o :: o' :: entries).map ProviderOption.text) ++ tail =
          o.text ++ 0x3B ::
            ([0x3B].intercalate ((o' :: entries).map ProviderOption.text) ++ tail) := by
        simp [List.intercalate_cons_cons]
      have hmore := ih (pre ++ o.text ++ [0x3B]) (out.set o.key (inferReadbackValue o.value)) fuel
        (by rw [List.length_cons] at hf; omega)
      rw [List.append_assoc, List.append_assoc, List.singleton_append, List.length_append,
        List.length_append, List.length_singleton] at hmore
      have hhead : ∀ (t : Bytes), ∀ c ∈ (0x3B :: t : Bytes).head?, c = 0x3B :=
        fun t c hc => (Option.some.inj hc).symm
      rw [hsplit, parseOptionsFrom_entry pre o _ (hhead _), hmore]
      rfl

theorem length_entries_le (entries : List ProviderOption) :
    entries.length ≤ ([0x3B].intercalate (entries.map ProviderOption.text)).length := by
  induction entries with
  | nil => exact le_rfl
  | cons o entries ih =>
    have htext : 0 < o.text.length := by
      rw [ProviderOption.text, List.length_append, List.length_cons]
      omega
    cases entries with
    | nil =>
      rw [List.map_singleton, List.intercalate_singleton]
      exact htext
    | cons o' entries =>
      rw [List.map_cons, List.map_cons, List.intercalate_cons_cons, List.length_append,
        List.length_append, List.length_cons]
      rw [List.map_cons] at ih
      omega

theorem foldl_set_members (entries : List ProviderOption) (members : List (Bytes × Json))
    (hkeys : (entries.map ProviderOption.key).Nodup)
    (hnew : ∀ o ∈ entries, ∀ e ∈ members, e.1 ≠ o.key) (hsorted : members.Pairwise (·.1 < ·.1)) :
    ∃ members' : List (Bytes × Json),
      entries.foldl ProviderOption.put (.object members) = .object members' ∧
        members'.Pairwise (·.1 < ·.1) ∧
        ∀ e, e ∈ members' ↔ e ∈ members ∨ ∃ o ∈ entries, e = o.member := by
  induction entries generalizing members with
  | nil => exact ⟨members, rfl, hsorted, by simp⟩
  | cons o entries ih =>
    obtain ⟨hfresh, hkeys⟩ := List.nodup_cons.1 hkeys
    have hmem := fun e => Json.mem_setMember (e := e) (hnew o List.mem_cons_self)
      (inferReadbackValue o.value)
    have hnew' : ∀ o' ∈ entries, ∀ e ∈ Json.setMember o.key (inferReadbackValue o.value) members,
        e.1 ≠ o'.key := by
      intro o' ho' e he
      rcases (hmem e).1 he with rfl | he
      · exact fun heq : o.key = o'.key => hfresh (heq ▸ List.mem_map_of_mem ho')
      · exact hnew o' (List.mem_cons_of_mem o ho') e he
    obtain ⟨members', hfold, hsorted', hmembers⟩ := ih _ hkeys hnew'
      (Json.pairwise_setMember hsorted o.key (inferReadbackValue o.value))
    refine ⟨members', hfold, hsorted', ?_⟩
    intro e
    rw [hmembers, hmem, List.exists_mem_cons_iff, ProviderOption.member]
    tauto

/-- The text that ORT prints is read as just its options. -/
theorem parseOptionsString_text (options : ProviderOptions) (final : Bool) :
    ∃ members, parseOptionsString (options.text final) = some (.object members) ∧
      members.Pairwise (·.1 < ·.1) ∧ ∀ e, e ∈ members ↔ ∃ o ∈ options.entries, e = o.member := by
  have hfuel : options.entries.length < (options.text final).length + 1 := by
    have hle := length_entries_le options.entries
    rw [ProviderOptions.text, List.length_append]
    omega
  have hparse := parseOptionsFrom_text [] options.entries final hfuel (.object [])
  obtain ⟨members, hfold, hsorted, hmembers⟩ := foldl_set_members options.entries [] options.distinct
    (by simp) List.Pairwise.nil
  refine ⟨members, ?_, hsorted, ?_⟩
  · rw [hfold] at hparse
    exact hparse
  · intro e
    rw [hmembers]
    simp

theorem find_filter (p : Bytes → Bool) (members : List (Bytes × Json)) (k : Bytes) :
    (Json.object (members.filter fun e => p e.1)).find k =
      if p k = true then (Json.object members).find k else none := by
  induction members with
  | nil => simp [Json.find]
  | cons e members ih =>
    rw [Json.find_object] at ih ⊢
    rw [Json.find_object] at ih ⊢
    by_cases hk : e.1 = k
    · subst hk
      by_cases hp : p e.1 = true
      · simp [hp]
      · simpa [hp] using ih
    · by_cases hp : p e.1 = true
      · simpa [hp, hk] using ih
      · simpa [hp, hk] using ih

theorem contains_iff (j : Json) (k : Bytes) :
    j.contains k = true ↔ ∃ e ∈ j.members, e.1 = k := by
  cases j with
  | object members => simp [Json.contains, Json.find, Json.members]
  | _ => simp [Json.contains, Json.find, Json.members]

theorem parseOptionsString_total (s : Bytes) :
    ∃ members, parseOptionsString s = some (.object members) :=
  parseOptionsFrom_total (by omega) (Nat.succ_pos _) []

/-- The options that ORT prints for its provider; none if it cannot. -/
def readBack (api : CudaApi) (passed : List (Bytes × Bytes)) : Json :=
  match api.getCUDAProviderOptionsAsString passed with
  | some text => (parseOptionsString (cString text)).getD (.object [])
  | none => .object []

theorem find_cudaEcho (h : cudaEcho requested (api.getCUDAProviderOptionsAsString passed) = .ok j)
    (k : Bytes) : j.find k = if k ∈ requested then (readBack api passed).find k else none := by
  rw [readBack]
  cases htext : api.getCUDAProviderOptionsAsString passed with
  | none =>
    rw [htext] at h
    obtain rfl := Except.ok.inj h
    simp [Json.find]
  | some text =>
    obtain ⟨members, hparse⟩ := parseOptionsString_total (cString text)
    rw [htext, cudaEcho, hparse] at h
    obtain rfl := Except.ok.inj h
    dsimp only
    rw [hparse, Option.getD_some]
    have hfilter := find_filter (fun key => requested.contains key) members k
    simpa [Json.members] using hfilter

theorem mem_requestedKeys (cuda : Json) (k : Bytes) :
    k ∈ requestedKeys cuda ↔ k = ascii "device_id" ∨ cuda.contains k = true := by
  rw [requestedKeys, List.mem_cons, List.mem_map, contains_iff]

theorem cudaEcho_total (requested : List Bytes) (text : Option Bytes) :
    ∃ j, cudaEcho requested text = .ok j := by
  cases text with
  | none => exact ⟨_, rfl⟩
  | some text =>
    obtain ⟨members, hparse⟩ := parseOptionsString_total (cString text)
    rw [cudaEcho, hparse]
    exact ⟨_, rfl⟩

variable {api : CudaApi} {updates : List (Bytes × Bytes)}

theorem updateAll_ok_iff : updateAll api updates = .ok () ↔
    updates = [] ∨ api.updateCUDAProviderOptions (passedUpdates updates) = none := by
  rw [updateAll]
  by_cases hempty : updates = []
  · simp [hempty]
  · rw [if_neg hempty]
    cases api.updateCUDAProviderOptions (passedUpdates updates) <;> simp [hempty]

structure CudaApi.Accepts (api : CudaApi) (updates : List (Bytes × Bytes)) : Prop where
  create : api.createCUDAProviderOptions = none
  update : updates = [] ∨ api.updateCUDAProviderOptions (passedUpdates updates) = none
  append : api.appendExecutionProvider (passedUpdates updates) = none

theorem appendCudaSessionOptions_eq (haccepts : api.Accepts updates)
    (hupdates : cudaUpdates dumpFloat (option.member (ascii "cuda")) = .ok updates) :
    appendCudaSessionOptions api dumpFloat option =
      cudaEcho (requestedKeys (option.member (ascii "cuda")))
        (api.getCUDAProviderOptionsAsString (passedUpdates updates)) := by
  have hupdate := updateAll_ok_iff.2 haccepts.update
  rw [appendCudaSessionOptions, haccepts.create]
  simp only [hupdates, hupdate, haccepts.append, bind, Except.bind]

theorem appendCudaSessionOptions_ok (h : appendCudaSessionOptions api dumpFloat option = .ok j) :
    ∃ updates, cudaUpdates dumpFloat (option.member (ascii "cuda")) = .ok updates ∧
      api.Accepts updates := by
  rw [appendCudaSessionOptions] at h
  cases hcreate : api.createCUDAProviderOptions with
  | some err =>
    rw [hcreate] at h
    cases h
  | none =>
    rw [hcreate] at h
    obtain ⟨updates, hupdates, h⟩ := bind_eq_ok.1 h
    obtain ⟨_, hupdate, h⟩ := bind_eq_ok.1 h
    refine ⟨updates, hupdates, hcreate, updateAll_ok_iff.1 hupdate, ?_⟩
    cases happend : api.appendExecutionProvider (passedUpdates updates) with
    | some err =>
      rw [happend] at h
      cases h
    | none => rfl

/-- What ORT prints is read as its options, and any text is read without going out of range. The
caller has an answer exactly where its values have texts and ORT accepts them, and sees, of what is
read, the keys that it supplied, and the device. -/
theorem cuda_echo :
    (∀ (options : ProviderOptions) (final : Bool), ∃ members,
      parseOptionsString (options.text final) = some (.object members) ∧
        members.Pairwise (·.1 < ·.1) ∧
        ∀ e, e ∈ members ↔ ∃ o ∈ options.entries, e = (o.key, inferReadbackValue o.value)) ∧
    (∀ s, ∃ members, parseOptionsString s = some (.object members)) ∧
    ∀ api dumpFloat option,
      ((∃ j, appendCudaSessionOptions api dumpFloat option = .ok j) ↔
        ∃ updates, cudaUpdates dumpFloat (option.member (ascii "cuda")) = .ok updates ∧
          api.Accepts updates) ∧
      ∀ j, appendCudaSessionOptions api dumpFloat option = .ok j →
        ∃ updates, cudaUpdates dumpFloat (option.member (ascii "cuda")) = .ok updates ∧
          ∀ k, j.find k =
            if k = ascii "device_id" ∨ (option.member (ascii "cuda")).contains k = true then
              (readBack api (passedUpdates updates)).find k
            else none := by
  refine ⟨parseOptionsString_text, parseOptionsString_total, fun api dumpFloat option =>
    ⟨⟨?_, ?_⟩, ?_⟩⟩
  · intro h
    obtain ⟨j, h⟩ := h
    exact appendCudaSessionOptions_ok h
  · intro h
    obtain ⟨updates, hupdates, haccepts⟩ := h
    rw [appendCudaSessionOptions_eq haccepts hupdates]
    exact cudaEcho_total _ _
  · intro j h
    obtain ⟨updates, hupdates, haccepts⟩ := appendCudaSessionOptions_ok h
    rw [appendCudaSessionOptions_eq haccepts hupdates] at h
    refine ⟨updates, hupdates, ?_⟩
    intro k
    rw [find_cudaEcho h]
    exact if_congr (mem_requestedKeys _ k) rfl rfl

def twoOptions : ProviderOptions where
  entries := [⟨ascii "device_id", ascii "0", by decide, by decide, by decide⟩,
    ⟨ascii "note", ascii "a=b", by decide, by decide, by decide⟩]
  distinct := by decide

def exampleDevice : CudaApi where
  createCUDAProviderOptions := none
  updateCUDAProviderOptions _ := none
  appendExecutionProvider _ := none
  getCUDAProviderOptionsAsString _ := some (twoOptions.text true)

def oneOption : Json :=
  .object [(ascii "cuda", .object [(ascii "note", .string (ascii "a=b"))])]

theorem cuda_echo_device :
    (∃ members, parseOptionsString (twoOptions.text true) = some (.object members) ∧
      members.Pairwise (·.1 < ·.1) ∧ ∀ e, e ∈ members ↔
        ∃ o ∈ twoOptions.entries, e = (o.key, inferReadbackValue o.value)) ∧
      (∃ members, parseOptionsString (ascii "=;a") = some (.object members)) ∧
      ∃ j, appendCudaSessionOptions exampleDevice (fun _ => []) oneOption = .ok j ∧
        ∃ updates, cudaUpdates (fun _ => []) (oneOption.member (ascii "cuda")) = .ok updates ∧
          ∀ k, j.find k =
            if k = ascii "device_id" ∨ (oneOption.member (ascii "cuda")).contains k = true then
              (readBack exampleDevice (passedUpdates updates)).find k
            else none := by
  obtain ⟨htext, htotal, happend⟩ := cuda_echo
  obtain ⟨hreturns, hecho⟩ := happend exampleDevice (fun _ => []) oneOption
  obtain ⟨j, hj⟩ := hreturns.2 ⟨_, rfl, rfl, .inr rfl, rfl⟩
  exact ⟨htext twoOptions true, htotal (ascii "=;a"), j, hj, hecho j hj⟩

end OnnxruntimeServer
