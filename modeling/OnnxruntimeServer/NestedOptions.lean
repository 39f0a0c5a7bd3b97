import OnnxruntimeServer.Numerals
import OnnxruntimeServer.PrintedModels

namespace OnnxruntimeServer
set_option autoImplicit true
theorem splitDotFrom_eq (parts : List Bytes) (cur k : Bytes) : splitDotFrom parts cur k =
    parts ++ ((k.splitOn 0x2E).modifyHead (cur ++ ·)).filter (· ≠ []) := by
  induction k generalizing parts cur with
  | nil =>
    by_cases hcur : cur = []
    · simp [splitDotFrom, pushPart, hcur]
    · simp [splitDotFrom, pushPart, hcur]
  | cons c k ih =>
    rw [splitDotFrom, List.splitOn_cons_eq_if_modifyHead]
    by_cases hc : c = 0x2E
    · have hid : (k.splitOn 0x2E).modifyHead (([] : Bytes) ++ ·) = k.splitOn 0x2E :=
        congrFun List.modifyHead_id _
      rw [if_pos hc, ih, if_pos (beq_iff_eq.2 hc), hid]
      by_cases hcur : cur = []
      · simp [pushPart, hcur]
      · simp [pushPart, hcur]
    · rw [if_neg hc, ih, if_neg (by simpa using hc), List.modifyHead_modifyHead]
      simp [Function.comp_def]

theorem splitDot_eq (k : Bytes) : splitDot k = (k.splitOn 0x2E).filter (· ≠ []) := by
  have hid : (k.splitOn 0x2E).modifyHead (([] : Bytes) ++ ·) = k.splitOn 0x2E :=
    congrFun List.modifyHead_id _
  rw [splitDot, splitDotFrom_eq, hid, List.nil_append]

theorem splitDot_ne_nil {key : Bytes} (h : isOptionKey key = true) : splitDot key ≠ [] := by
  cases key with
  | nil => cases h
  | cons a key =>
    have ha : ¬ (a == 0x2E) = true := by
      rintro ha
      rw [beq_iff_eq.1 ha] at h
      cases h
    obtain ⟨part, parts, hparts⟩ := List.exists_cons_of_ne_nil (List.splitOn_ne_nil 0x2E key)
    rw [splitDot_eq, List.splitOn_cons_eq_if_modifyHead, if_neg ha, hparts]
    simp

namespace Json

/-- What stands at a path of keys. -/
def atPath (j : Json) : List Bytes → Option Json
  | [] => some j
  | key :: path => (j.find key).bind fun value => value.atPath path

def Ordered (j : Json) : Prop :=
  ∀ path members, j.atPath path = some (.object members) → members.Pairwise (·.1 < ·.1)

/-- Just the values at the paths, and the objects on the way to them. -/
structure Exactly (j : Json) (assignments : List (List Bytes × Json)) : Prop where
  values : ∀ path value, ¬ value.isObject = true →
    (j.atPath path = some value ↔ (path, value) ∈ assignments)
  objects : ∀ path, (∃ members, j.atPath path = some (.object members)) ↔
    path = [] ∨ ∃ a ∈ assignments, path <+: a.1 ∧ path ≠ a.1
  ordered : j.Ordered

theorem find_object (key : Bytes) (members : List (Bytes × Json)) :
    (Json.object members).find key = (members.find? fun e => e.1 = key).map Prod.snd := rfl

theorem find_of_not_object {j : Json} (h : ¬ j.isObject = true) (key : Bytes) :
    j.find key = none := by
  cases j with
  | object members => exact absurd rfl h
  | _ => rfl

theorem find_set (j : Json) (key : Bytes) (value : Json) (k : Bytes) :
    (j.set key value).find k = if key = k then some value else j.find k := by
  rw [set, find_object, find_setMember]
  by_cases hk : key = k
  · rw [if_pos hk, if_pos hk]
    rfl
  · rw [if_neg hk, if_neg hk]
    cases j <;> rfl

theorem atPath_of_not_object {j : Json} (h : ¬ j.isObject = true) (key : Bytes) (path : List Bytes) :
    j.atPath (key :: path) = none := by
  rw [atPath, find_of_not_object h]
  rfl

theorem atPath_child (j : Json) (key k : Bytes) (path : List Bytes) :
    (if (j.member key).isObject then j.member key else .object []).atPath (k :: path) =
      j.atPath (key :: k :: path) := by
  rw [member, atPath.eq_2 j]
  cases hf : j.find key with
  | none => rfl
  | some value =>
    by_cases hv : value.isObject = true
    · rw [Option.getD_some, if_pos hv]
      rfl
    · rw [Option.getD_some, if_neg hv, Option.bind_some, atPath_of_not_object hv]
      rfl

theorem eq_or_mem_of_mem_setMember {members : List (Bytes × Json)}
    (h : e ∈ setMember key value members) :
    e = (key, value) ∨ e ∈ members := by
  induction members with
  | nil => exact .inl (List.mem_singleton.1 h)
  | cons x members ih =>
    rw [setMember] at h
    split_ifs at h
    · exact (List.mem_cons.1 h).imp_right id
    · exact (List.mem_cons.1 h).imp_right (List.mem_cons_of_mem x)
    · rcases List.mem_cons.1 h with rfl | h
      · exact .inr List.mem_cons_self
      · exact (ih h).imp_right (List.mem_cons_of_mem x)

theorem pairwise_setMember {members : List (Bytes × Json)} (h : members.Pairwise (·.1 < ·.1))
    (key : Bytes) (value : Json) : (setMember key value members).Pairwise (·.1 < ·.1) := by
  induction members with
  | nil => exact List.pairwise_singleton _ _
  | cons x members ih =>
    obtain ⟨hx, hmembers⟩ := List.pairwise_cons.1 h
    rw [setMember]
    split_ifs with hlt heq
    · refine List.pairwise_cons.2 ⟨?_, h⟩
      intro e he
      rcases List.mem_cons.1 he with rfl | he
      · exact hlt
      · exact List.lt_trans hlt (hx e he)
    · subst heq
      exact List.pairwise_cons.2 ⟨hx, hmembers⟩
    · refine List.pairwise_cons.2 ⟨?_, ih hmembers⟩
      intro e he
      rcases eq_or_mem_of_mem_setMember he with rfl | he
      · exact Std.lt_of_le_of_ne hlt (Ne.symm heq)
      · exact hx e he

theorem Ordered.find {j : Json} (h : j.Ordered) (hf : j.find key = some value) : value.Ordered := by
  intro path members hat
  apply h (key :: path)
  rw [atPath, hf]
  exact hat

theorem Ordered.set {j : Json} (h : j.Ordered) (key : Bytes) {value : Json} (hv : value.Ordered) :
    (j.set key value).Ordered := by
  intro path members hat
  cases path with
  | nil =>
    have hmembers : j.members.Pairwise (·.1 < ·.1) := by
      cases j with
      | object members => exact h [] members rfl
      | _ => exact List.Pairwise.nil
    obtain rfl := Json.object.inj (Option.some.inj hat)
    exact pairwise_setMember hmembers key value
  | cons k path =>
    rw [atPath, find_set] at hat
    split at hat
    · exact hv path members hat
    · exact h (k :: path) members hat

theorem ordered_empty : (Json.object []).Ordered := by
  intro path members hat
  cases path with
  | nil =>
    obtain rfl := Json.object.inj (Option.some.inj hat)
    exact List.Pairwise.nil
  | cons k path => cases hat

theorem ordered_of_not_object {j : Json} (h : ¬ j.isObject = true) : j.Ordered := by
  intro path members hat
  cases path with
  | nil =>
    obtain rfl := Option.some.inj hat
    exact absurd rfl h
  | cons k path =>
    rw [atPath_of_not_object h] at hat
    cases hat

theorem Ordered.setNested {j : Json} (h : j.Ordered) (path : List Bytes) {value : Json}
    (hv : value.Ordered) : (setNested j path value).Ordered := by
  induction path generalizing j with
  | nil => exact h
  | cons key path ih =>
    cases path with
    | nil => exact h.set key hv
    | cons k path =>
      apply h.set key
      apply ih
      split
      · rename_i hobject
        cases hf : j.find key with
        | none =>
          rw [member, hf] at hobject
          cases hobject
        | some child =>
          rw [member, hf]
          exact h.find hf
      · exact ordered_empty

theorem exactly_empty : (Json.object []).Exactly [] where
  values path value hv := by
    cases path with
    | nil =>
      have hne : ¬ (Json.object []).atPath [] = some value := by
        rintro ⟨⟩
        exact hv rfl
      simp [hne]
    | cons k path => simp [atPath, find]
  objects path := by
    cases path with
    | nil => simp [atPath]
    | cons k path => simp [atPath, find]
  ordered := ordered_empty

end Json

open Json

theorem setNested_cons (j : Json) (key k : Bytes) (path : List Bytes) (value : Json) :
    setNested j (key :: k :: path) value = j.set key
      (setNested (if (j.member key).isObject then j.member key else .object []) (k :: path) value) :=
  rfl

theorem atPath_setNested_append (j : Json) (hp : path ≠ []) (value : Json) (rest : List Bytes) :
    (setNested j path value).atPath (path ++ rest) = value.atPath rest := by
  induction path generalizing j with
  | nil => exact absurd rfl hp
  | cons key path ih =>
    cases path with
    | nil =>
      rw [setNested, List.singleton_append, atPath, find_set, if_pos rfl]
      rfl
    | cons k path =>
      rw [setNested_cons, List.cons_append, atPath, find_set, if_pos rfl]
      exact ih _ (List.cons_ne_nil k path)

theorem atPath_setNested_prefix (j : Json) (path : List Bytes) (key : Bytes) (rest : List Bytes)
    (value : Json) :
    ∃ members, (setNested j (path ++ key :: rest) value).atPath path = some (.object members) := by
  induction path generalizing j with
  | nil =>
    cases rest with
    | nil => exact ⟨_, rfl⟩
    | cons k rest => exact ⟨_, rfl⟩
  | cons k path ih =>
    obtain ⟨k', path', hpath⟩ := List.exists_cons_of_ne_nil
      (List.append_ne_nil_of_right_ne_nil path (List.cons_ne_nil key rest))
    obtain ⟨members, hmembers⟩ := ih (if (j.member k).isObject then j.member k else .object [])
    refine ⟨members, ?_⟩
    rw [hpath] at hmembers
    rw [List.cons_append, hpath, setNested_cons, atPath, find_set, if_pos rfl]
    exact hmembers

/-- Nothing changes off the path. -/
theorem atPath_setNested_of_incomparable (j : Json) (value : Json) (h : ¬ path <+: other)
    (h' : ¬ other <+: path) : (setNested j path value).atPath other = j.atPath other := by
  induction path generalizing j other with
  | nil => exact absurd List.nil_prefix h
  | cons key path ih =>
    cases other with
    | nil => exact absurd List.nil_prefix h'
    | cons k other =>
      by_cases hk : key = k
      · subst hk
        rw [List.cons_prefix_cons, not_and] at h h'
        cases path with
        | nil => exact absurd List.nil_prefix (h rfl)
        | cons k path =>
          cases other with
          | nil => exact absurd List.nil_prefix (h' rfl)
          | cons k' other =>
            rw [setNested_cons, atPath, find_set, if_pos rfl, Option.bind_some, ih _ (h rfl) (h' rfl),
              atPath_child]
      · have hfind : (setNested j (key :: path) value).find k = j.find k := by
          cases path with
          | nil => rw [setNested, find_set, if_neg hk]
          | cons k' path => rw [setNested_cons, find_set, if_neg hk]
        rw [atPath, atPath, hfind]

theorem setMember_setMember (key : Bytes) (value value' : Json) (members : List (Bytes × Json)) :
    setMember key value' (setMember key value members) = setMember key value' members := by
  have hself : ∀ rest, setMember key value' ((key, value) :: rest) = (key, value') :: rest := by
    intro rest
    rw [setMember, if_neg (List.lt_irrefl key), if_pos rfl]
  induction members with
  | nil => exact hself []
  | cons x members ih =>
    rw [setMember, setMember]
    split_ifs with hlt heq
    · exact hself _
    · exact hself _
    · rw [setMember, if_neg hlt, if_neg heq, ih]

theorem Json.set_set (j : Json) (key : Bytes) (value value' : Json) :
    (j.set key value).set key value' = j.set key value' :=
  congrArg Json.object (setMember_setMember key value value' j.members)

theorem isObject_setNested (j : Json) (hp : path ≠ []) (value : Json) :
    (setNested j path value).isObject = true := by
  cases path with
  | nil => exact absurd rfl hp
  | cons key path => cases path <;> rfl

theorem setNested_setNested (j : Json) (path : List Bytes) (value value' : Json) :
    setNested (setNested j path value) path value' = setNested j path value' := by
  induction path generalizing j with
  | nil => rfl
  | cons key path ih =>
    cases path with
    | nil => exact j.set_set key value value'
    | cons k path =>
      have hchild : ∀ child, (j.set key (setNested child (k :: path) value)).member key =
          setNested child (k :: path) value := by
        intro child
        rw [member, find_set, if_pos rfl]
        rfl
      rw [setNested_cons, setNested_cons, setNested_cons, hchild, if_pos (isObject_setNested _
        (List.cons_ne_nil k path) value), ih, Json.set_set]

/-- A value that is set is found again, nothing off its path has changed, and a second write to the
path undoes the first. -/
theorem setNested_lens (j : Json) (hp : p ≠ []) (q : List Bytes) (v w : Json) :
    (setNested j p v).atPath p = some v ∧
      (¬ p <+: q → ¬ q <+: p → (setNested j p v).atPath q = j.atPath q) ∧
      setNested (setNested j p v) p w = setNested j p w := by
  refine ⟨?_, atPath_setNested_of_incomparable j v, setNested_setNested j p v w⟩
  have hself := atPath_setNested_append j hp v []
  rw [List.append_nil] at hself
  exact hself

/-- A scalar on the way gives way. -/
theorem setNested_lens_scalar :
    let j : Json := .object [(ascii "cuda", .boolean true), (ascii "logid", .string (ascii "a"))]
    let p := [ascii "cuda", ascii "device_id"]
    (setNested j p (.integer 1)).atPath p = some (.integer 1) ∧
      (setNested j p (.integer 1)).atPath [ascii "logid"] = some (.string (ascii "a")) ∧
      setNested (setNested j p (.integer 1)) p (.integer 2) = setNested j p (.integer 2) := by
  intro j p
  have hlens := setNested_lens j (List.cons_ne_nil _ _ : p ≠ []) [ascii "logid"] (.integer 1)
    (.integer 2)
  exact ⟨hlens.1, hlens.2.1 (by decide) (by decide), hlens.2.2⟩

theorem Json.Exactly.values_setNested {j : Json} (h : j.Exactly assignments) (hp : path ≠ [])
    (hv : ¬ value.isObject = true) (hfree : ∀ a ∈ assignments, ¬ a.1 <+: path ∧ ¬ path <+: a.1)
    (hw : ¬ w.isObject = true) :
    (setNested j path value).atPath q = some w ↔ (q, w) ∈ assignments ++ [(path, value)] := by
  rw [List.mem_append, List.mem_singleton]
  by_cases hpq : path <+: q
  · have hnot : ¬ (q, w) ∈ assignments := fun hmem => (hfree _ hmem).2 hpq
    obtain ⟨rest, rfl⟩ := hpq
    rw [atPath_setNested_append j hp]
    cases rest with
    | nil =>
      rw [List.append_nil] at hnot ⊢
      simp [hnot, atPath, eq_comm]
    | cons k rest => simp [hnot, atPath_of_not_object hv]
  · have hne : ¬ (q, w) = (path, value) := fun heq => hpq (by rw [(Prod.mk.inj heq).1])
    by_cases hqp : q <+: path
    · have hnot : ¬ (q, w) ∈ assignments := fun hmem => (hfree _ hmem).1 hqp
      obtain ⟨rest, rfl⟩ := hqp
      cases rest with
      | nil =>
        rw [List.append_nil] at hpq
        exact absurd List.prefix_rfl hpq
      | cons k rest =>
        obtain ⟨members, hat⟩ := atPath_setNested_prefix j q k rest value
        rw [hat]
        refine iff_of_false ?_ (by simp [hnot, hne])
        rintro ⟨⟩
        exact hw rfl
    · rw [atPath_setNested_of_incomparable j value hpq hqp, h.values q w hw]
      exact (or_iff_left hne).symm

theorem Json.Exactly.objects_setNested {j : Json} (h : j.Exactly assignments) (hp : path ≠ [])
    (hv : ¬ value.isObject = true) (hfree : ∀ a ∈ assignments, ¬ a.1 <+: path ∧ ¬ path <+: a.1) :
    (∃ members, (setNested j path value).atPath q = some (.object members)) ↔
      q = [] ∨ ∃ a ∈ assignments ++ [(path, value)], q <+: a.1 ∧ q ≠ a.1 := by
  by_cases hpq : path <+: q
  · refine iff_of_false ?_ ?_
    · obtain ⟨rest, rfl⟩ := hpq
      rw [atPath_setNested_append j hp]
      rintro ⟨members, hat⟩
      cases rest with
      | nil =>
        obtain rfl := Option.some.inj hat
        exact hv rfl
      | cons k rest =>
        rw [atPath_of_not_object hv] at hat
        cases hat
    · rintro (rfl | ⟨a, ha, hq, hne⟩)
      · exact hp (List.prefix_nil.1 hpq)
      · rcases List.mem_append.1 ha with ha | ha
        · exact (hfree a ha).2 (hpq.trans hq)
        · obtain rfl := List.mem_singleton.1 ha
          exact hne (hq.eq_of_length_le hpq.length_le)
  · by_cases hqp : q <+: path
    · have hne : q ≠ path := fun heq => hpq (by rw [heq])
      have hmem : (path, value) ∈ assignments ++ [(path, value)] :=
        List.mem_append_right _ (List.mem_singleton.2 rfl)
      refine iff_of_true ?_ (.inr ⟨_, hmem, hqp, hne⟩)
      obtain ⟨rest, rfl⟩ := hqp
      cases rest with
      | nil => exact absurd (List.append_nil q).symm hne
      | cons k rest => exact atPath_setNested_prefix j q k rest value
    · rw [atPath_setNested_of_incomparable j value hpq hqp, h.objects q]
      apply or_congr_right
      constructor
      · rintro ⟨a, ha, hq⟩
        exact ⟨a, List.mem_append_left _ ha, hq⟩
      · rintro ⟨a, ha, hq⟩
        rcases List.mem_append.1 ha with ha | ha
        · exact ⟨a, ha, hq⟩
        · obtain rfl := List.mem_singleton.1 ha
          exact absurd hq.1 hqp

theorem Json.Exactly.setNested {j : Json} (h : j.Exactly assignments) (hp : path ≠ [])
    (hv : ¬ value.isObject = true) (hfree : ∀ a ∈ assignments, ¬ a.1 <+: path ∧ ¬ path <+: a.1) :
    (setNested j path value).Exactly (assignments ++ [(path, value)]) where
  values _ _ hw := h.values_setNested hp hv hfree hw
  objects _ := h.objects_setNested hp hv hfree
  ordered := h.ordered.setNested path (ordered_of_not_object hv)

end OnnxruntimeServer
