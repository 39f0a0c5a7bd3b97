import OnnxruntimeServer.ContextShape

namespace OnnxruntimeServer
set_option autoImplicit true

/-- The integer types of a tensor, as signedness and width. -/
def ElementType.integer? : ElementType → Option (Bool × Nat)
  | .int8 => some (true, 8)
  | .int16 => some (true, 16)
  | .int32 => some (true, 32)
  | .int64 => some (true, 64)
  | .uint8 => some (false, 8)
  | .uint16 => some (false, 16)
  | .uint32 => some (false, 32)
  | .uint64 => some (false, 64)
  | _ => none

def InType (signed : Bool) (bits : Nat) (i : Int) : Prop :=
  if signed then -2 ^ (bits - 1) ≤ i ∧ i < 2 ^ (bits - 1) else 0 ≤ i ∧ i < 2 ^ bits

def Double.value : Double → Option ℚ
  | .finite neg mant exp => some ((if neg then -1 else 1) * (mant : Nat) * 2 ^ exp)
  | _ => none

/-- The number that a JSON value stands for. -/
def Json.number : Json → Option ℚ
  | .integer i => some i.toInt
  | .unsigned n => some n.toNat
  | .float x => x.value
  | _ => none

def Scalar.integer : Scalar → Option Int
  | .int i => some i
  | _ => none

def Representable (signed : Bool) (bits : Nat) (q : ℚ) : Prop :=
  ∃ i : Int, (i : ℚ) = q ∧ InType signed bits i

theorem two_pow_pred (hb : 0 < bits) : 2 ^ bits = 2 * 2 ^ (bits - 1) := by
  rw [← pow_succ', Nat.sub_add_cancel hb]

theorem inType_wrap (hb : 0 < bits) (signed : Bool) (i : Int) :
    InType signed bits (wrap signed bits i) := by
  cases signed with
  | false => exact ⟨Int.emod_nonneg _ (by positivity), Int.emod_lt_of_pos _ (by positivity)⟩
  | true =>
    have hpos : 0 < 2 ^ bits := Nat.two_pow_pos bits
    have hlo := Int.le_bmod (x := i) hpos
    have hhi := Int.bmod_lt (x := i) hpos
    have hp : (2 : Nat) ^ bits = 2 * 2 ^ (bits - 1) := two_pow_pred hb
    rw [hp] at hlo hhi
    push_cast at hlo hhi
    refine ⟨?_, ?_⟩
    · rw [wrap, if_pos rfl, hp]
      omega
    · rw [wrap, if_pos rfl, hp]
      omega

theorem wrap_modEq (signed : Bool) (bits : Nat) (i : Int) :
    wrap signed bits i ≡ i [ZMOD 2 ^ bits] := by
  cases signed with
  | false => exact Int.mod_modEq i _
  | true =>
    have h : ((2 ^ bits : Nat) : Int) ∣ i - i.bmod (2 ^ bits) := Int.dvd_self_sub_bmod
    rw [Nat.cast_pow] at h
    exact Int.modEq_iff_dvd.2 h

theorem wrap_eq_self_iff (hb : 0 < bits) {signed : Bool} {i : Int} :
    wrap signed bits i = i ↔ InType signed bits i := by
  constructor
  · intro h
    rw [← h]
    exact inType_wrap hb signed i
  · intro h
    cases signed with
    | false => exact Int.emod_eq_of_lt h.1 h.2
    | true =>
      have hp : (2 : Nat) ^ bits = 2 * 2 ^ (bits - 1) := two_pow_pred hb
      obtain ⟨hlo, hhi⟩ := h
      apply Int.bmod_eq_of_le
      · rw [hp]
        push_cast
        omega
      · rw [hp]
        push_cast
        omega

def magnitude (mant : Nat) (exp : Int) : Nat :=
  if 0 ≤ exp then mant * 2 ^ exp.toNat else mant / 2 ^ (-exp).toNat

theorem magnitude_of_integer {mant : Nat} {exp i : Int} (h : (i : ℚ) = mant * 2 ^ exp) :
    (magnitude mant exp : ℚ) = mant * 2 ^ exp := by
  rw [magnitude]
  rcases Int.eq_nat_or_neg exp with ⟨k, rfl | rfl⟩
  · rw [if_pos (by omega), Int.toNat_natCast, zpow_natCast]
    push_cast
    rfl
  · rw [zpow_neg, zpow_natCast, ← div_eq_mul_inv] at h ⊢
    have hk : (2 : ℚ) ^ k ≠ 0 := by positivity
    have hdvd : 2 ^ k ∣ mant := by
      rw [eq_div_iff hk] at h
      have hi : i * 2 ^ k = mant := by exact_mod_cast h
      exact Int.natCast_dvd_natCast.1 ⟨i, by push_cast; rw [← hi, mul_comm]⟩
    split_ifs with hexp
    · obtain rfl : k = 0 := by omega
      simp
    · rw [neg_neg, Int.toNat_natCast, Nat.cast_div hdvd (by exact_mod_cast hk)]
      push_cast
      rfl

theorem truncate_value {x : Double} (hq : x.value = some q) :
    ∃ t, x.truncate = some t ∧ ∀ i : Int, (i : ℚ) = q → i = t := by
  cases x with
  | finite neg mant exp =>
    obtain rfl := Option.some.inj hq
    refine ⟨_, rfl, fun i hi => ?_⟩
    cases neg with
    | false =>
      simp only [Bool.false_eq_true, if_false, one_mul] at hi ⊢
      have h := magnitude_of_integer hi
      exact_mod_cast hi.trans h.symm
    | true =>
      simp only [if_true, neg_mul, one_mul] at hi ⊢
      have hneg : ((-i : Int) : ℚ) = mant * 2 ^ exp := by rw [Int.cast_neg, hi, neg_neg]
      have h := magnitude_of_integer hneg
      rw [← h] at hi
      exact_mod_cast hi
  | infinite neg => cases hq
  | nan => cases hq

theorem representable_intCast {n : Int} : Representable signed bits n ↔ InType signed bits n := by
  constructor
  · rintro ⟨i, hi, h⟩
    obtain rfl : i = n := by exact_mod_cast hi
    exact h
  · exact fun h => ⟨n, rfl, h⟩

/-- What is stored for a number of an integer type of JSON's, and of its floating-point type. -/
inductive Stored (signed : Bool) (bits : Nat) : Json → Scalar → Prop where
  | integer : InType signed bits k → k ≡ i.toInt [ZMOD 2 ^ bits] →
    Stored signed bits (.integer i) (.int k)
  | unsigned : InType signed bits k → k ≡ n.toNat [ZMOD 2 ^ bits] →
    Stored signed bits (.unsigned n) (.int k)
  | float : x.truncate = some t → InType signed bits t → Stored signed bits (.float x) (.int t)
  | undefined : x.truncate = some t → ¬ InType signed bits t →
    Stored signed bits (.float x) .undefined

theorem getInteger_number {j : Json} (hb : 0 < bits) (hq : j.number = some q)
    (signed boolean : Bool) :
    ∃ element, getInteger signed bits boolean j = .ok element ∧ Stored signed bits j element := by
  cases j with
  | integer i => exact ⟨_, rfl, .integer (inType_wrap hb _ _) (wrap_modEq _ _ _)⟩
  | unsigned n => exact ⟨_, rfl, .unsigned (inType_wrap hb _ _) (wrap_modEq _ _ _)⟩
  | float x =>
    obtain ⟨t, ht, _⟩ := truncate_value hq
    simp only [getInteger, ht]
    by_cases hw : wrap signed bits t = t
    · rw [if_pos hw]
      exact ⟨_, rfl, .float ht ((wrap_eq_self_iff hb).1 hw)⟩
    · rw [if_neg hw]
      exact ⟨_, rfl, .undefined ht fun h => hw ((wrap_eq_self_iff hb).2 h)⟩
  | _ => cases hq

theorem inType_unique (hb : 0 < bits) (hi : InType signed bits i) (hk : InType signed bits k)
    (h : i ≡ k [ZMOD 2 ^ bits]) : i = k := by
  rw [← (wrap_eq_self_iff hb).2 hi, ← (wrap_eq_self_iff hb).2 hk]
  cases signed with
  | false => exact h
  | true =>
    have hmod : i % (2 ^ bits : Nat) = k % (2 ^ bits : Nat) := by
      push_cast
      exact h
    calc i.bmod (2 ^ bits) = (i % (2 ^ bits : Nat)).bmod (2 ^ bits) := (Int.emod_bmod _ _).symm
      _ = k.bmod (2 ^ bits) := by rw [hmod, Int.emod_bmod]

theorem eq_iff_representable (hb : 0 < bits) (hk : InType signed bits k)
    (h : k ≡ n [ZMOD 2 ^ bits]) :
    (∃ i, (Scalar.int k).integer = some i ∧ (i : ℚ) = n) ↔ Representable signed bits n := by
  rw [representable_intCast]
  constructor
  · rintro ⟨i, hi, hn⟩
    obtain rfl := Option.some.inj hi
    obtain rfl : k = n := by exact_mod_cast hn
    exact hk
  · intro hn
    obtain rfl := inType_unique hb hk hn h
    exact ⟨k, rfl, rfl⟩

/-- What is stored is the number itself exactly when the type has it. -/
theorem Stored.eq_iff {j : Json} (hb : 0 < bits) (h : Stored signed bits j element)
    (hq : j.number = some q) :
    (∃ i, element.integer = some i ∧ (i : ℚ) = q) ↔ Representable signed bits q := by
  cases h with
  | integer hk hmod =>
    obtain rfl := Option.some.inj hq
    exact eq_iff_representable hb hk hmod
  | unsigned hk hmod =>
    obtain rfl := Option.some.inj hq
    have := eq_iff_representable hb hk hmod
    rwa [Int.cast_natCast] at this
  | float ht hin =>
    obtain ⟨t, ht', hone⟩ := truncate_value hq
    obtain rfl := Option.some.inj (ht.symm.trans ht')
    constructor
    · rintro ⟨i, hi, hn⟩
      obtain rfl := Option.some.inj hi
      exact ⟨_, hn, hin⟩
    · rintro ⟨i, hn, _⟩
      exact ⟨_, rfl, hone i hn ▸ hn⟩
  | undefined ht hout =>
    obtain ⟨t, ht', hone⟩ := truncate_value hq
    obtain rfl := Option.some.inj (ht.symm.trans ht')
    constructor
    · rintro ⟨i, hi, _⟩
      cases hi
    · rintro ⟨i, hn, hin⟩
      exact absurd (hone i hn ▸ hin) hout

theorem integer_get {type : ElementType} (h : type.integer? = some (signed, bits)) :
    0 < bits ∧ ∃ boolean, type.get? = some (getInteger signed bits boolean) := by
  cases type <;> cases h <;> exact ⟨by decide, _, rfl⟩

theorem mapM_ok {f : α → Except ε β} {xs : List α} (h : ∀ x ∈ xs, ∃ y, f x = .ok y) :
    ∃ ys, xs.mapM f = .ok ys := by
  induction xs with
  | nil => exact ⟨[], rfl⟩
  | cons x xs ih =>
    obtain ⟨y, hy⟩ := h x (by simp)
    obtain ⟨ys, hys⟩ := ih fun x hx => h x (by simp [hx])
    exact ⟨y :: ys, by simp [List.mapM_cons, hy, hys, bind, Except.bind, pure, Except.pure]⟩

/-- No number is refused, and each is stored as a `static_cast` stores it, so unchanged exactly
when the type has it. -/
theorem createTensor_integers (hds : datasetOf lib json_str = .ok dataset)
    (hc : call ∈ (context lib createTensor inputs json_str).calls)
    (ht : call.info.element_type.integer? = some (signed, bits)) :
    (∀ json_value, (∀ j ∈ json_value, Json.number j ≠ none) →
      ∃ made, inputValue call.info json_value = .ok made) ∧
    ∀ (k : Nat) leaf q, (flatJsonValues (dataset.member call.info.name) [])[k]? = some leaf →
      leaf.number = some q →
      ∃ element, call.values[k]? = some element ∧ Stored signed bits leaf element ∧
        ((∃ i, element.integer = some i ∧ (i : ℚ) = q) ↔ Representable signed bits q) := by
  obtain ⟨hb, boolean, hget⟩ := integer_get ht
  constructor
  · intro json_value hnum
    have hconv : ∀ j ∈ json_value, ∃ element, getInteger signed bits boolean j = .ok element := by
      intro j hj
      obtain ⟨q, hq⟩ := Option.ne_none_iff_exists'.1 (hnum j hj)
      obtain ⟨element, he, _⟩ := getInteger_number hb hq signed boolean
      exact ⟨element, he⟩
    obtain ⟨values, hv⟩ := mapM_ok hconv
    simp only [inputValue, hget, hv]
    exact ⟨_, rfl⟩
  · intro k leaf q hleaf hq
    obtain ⟨ds, hds', input, _, hcall⟩ := context_calls hc
    obtain rfl : dataset = ds := Except.ok.inj (hds.symm.trans hds')
    obtain ⟨hname, htype, _, _, _, get, hget', hv⟩ := inputTensor_ok hcall
    rw [← htype] at hget'
    obtain rfl := Option.some.inj (hget.symm.trans hget')
    rw [hname] at hleaf
    obtain ⟨element, helem, hconv⟩ := forall₂_getElem? (mapM_forall₂ hv) hleaf
    obtain ⟨element', hconv', hstored⟩ := getInteger_number hb hq signed boolean
    obtain rfl := Except.ok.inj (hconv.symm.trans hconv')
    exact ⟨element, helem, hstored, hstored.eq_iff hb hq⟩

def int8Calls (items : List Json) : List CreateTensor :=
  (context ⟨fun _ => ⟨[], .ok .null⟩, fun _ => []⟩ (fun _ => .ok ())
    [⟨ascii "X", .int8, [-1], []⟩] (.object [(ascii "X", .array items)])).calls

theorem createTensor_integers_seven :
    ∃ call ∈ int8Calls [.unsigned 7], ∃ element, call.values[0]? = some element ∧
      ∃ i : Int, element.integer = some i ∧ (i : ℚ) = (7 : UInt64).toNat := by
  have hds : datasetOf ⟨fun _ => ⟨[], .ok .null⟩, fun _ => []⟩
      (.object [(ascii "X", .array [.unsigned 7])]) =
      .ok (.object [(ascii "X", .array [.unsigned 7])]) := rfl
  obtain ⟨call, hcalls, hinfo⟩ : ∃ call, int8Calls [.unsigned 7] = [call] ∧
      call.info = ⟨ascii "X", .int8, [-1], [1]⟩ := ⟨_, rfl, rfl⟩
  have hc : call ∈ int8Calls [.unsigned 7] := by
    rw [hcalls]
    exact List.mem_singleton_self _
  have hleaf : (flatJsonValues (Json.member (.object [(ascii "X", .array [.unsigned 7])])
      call.info.name) [])[0]? = some (.unsigned 7) := by
    rw [hinfo]
    rfl
  have ht : call.info.element_type.integer? = some (true, 8) := by
    rw [hinfo]
    rfl
  obtain ⟨element, he, _, hiff⟩ := (createTensor_integers hds hc ht).2 0 _ _ hleaf rfl
  refine ⟨call, hc, element, he, ?_⟩
  exact hiff.2 (representable_intCast.2 ⟨by decide, by decide⟩)

/-- For 300 an `int8` input holds 44, and for 1.5 it holds 1. -/
theorem createTensor_integers_wrap :
    (int8Calls [.unsigned 300]).map (fun call => call.values.map Scalar.integer) = [[some 44]] ∧
      ¬ Representable true 8 ((300 : Int) : ℚ) ∧
      (int8Calls [.float (.finite false 3 (-1))]).map
        (fun call => call.values.map Scalar.integer) = [[some 1]] := by
  refine ⟨by decide +kernel, fun h => ?_, by decide +kernel⟩
  obtain ⟨_, h⟩ := representable_intCast.1 h
  exact absurd h (by decide)

end OnnxruntimeServer
