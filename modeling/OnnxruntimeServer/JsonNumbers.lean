import OnnxruntimeServer.JsonStrings

namespace OnnxruntimeServer
set_option autoImplicit true

def Digits (text : Bytes) : Prop := ∀ b ∈ text, isDigit b = true

/-- `0`, or digits without a leading zero. -/
def IntText (text : Bytes) : Prop :=
  text = [0x30] ∨ ∃ d ds, text = d :: ds ∧ isDigit d = true ∧ d ≠ 0x30 ∧ Digits ds

def FracText (text : Bytes) : Prop := ∃ d ds, text = 0x2E :: d :: ds ∧ isDigit d = true ∧ Digits ds

def ExpText (text : Bytes) : Prop :=
  ∃ e sign d ds, text = e :: (sign ++ d :: ds) ∧ (e = 0x65 ∨ e = 0x45) ∧
    (sign = [] ∨ sign = [0x2B] ∨ sign = [0x2D]) ∧ isDigit d = true ∧ Digits ds

/-- A fraction, an exponent or both. -/
def FloatTail (text : Bytes) : Prop :=
  text ≠ [] ∧ ∃ f e, text = f ++ e ∧ (f = [] ∨ FracText f) ∧ (e = [] ∨ ExpText e)

/-- The numbers of JSON, by what `scan_number` takes them for. -/
inductive NumberText : NumberType → Bytes → Prop where
  | unsigned (hi : IntText i) : NumberText .unsigned i
  | integer (hi : IntText i) : NumberText .integer (0x2D :: i)
  | float (hm : m = [] ∨ m = [0x2D]) (hi : IntText i) (ht : FloatTail t) :
    NumberText .float (m ++ i ++ t)

/-- What `scan_number` reads from a label on, up to a character that ends the number. -/
inductive NumberRun : NumberState → NumberType → Bytes → NumberType → Prop where
  | done (h : label.next none = .ok none) : NumberRun label number_type [] number_type
  | step (h : NumberState.next label (some b) = .ok (some label'))
    (hr : NumberRun label' (label'.enter number_type) text final) :
    NumberRun label number_type (b :: text) final

theorem numberRun_nil : NumberRun label number_type [] final ↔
    label.next none = .ok none ∧ final = number_type := by
  constructor
  · intro h
    cases h with
    | done h => exact ⟨h, rfl⟩
  · rintro ⟨h, rfl⟩
    exact .done h

theorem numberRun_cons : NumberRun label number_type (b :: text) final ↔
    ∃ label', label.next (some b) = .ok (some label') ∧
      NumberRun label' (label'.enter number_type) text final := by
  constructor
  · intro h
    cases h with
    | step h hr => exact ⟨_, h, hr⟩
  · rintro ⟨label', h, hr⟩
    exact .step h hr

namespace NumberState

theorem next_any2 : next .any2 (some b) = .ok (some label') ↔
    isDigit b = true ∧ label' = .any2 := by
  by_cases hb : isDigit b = true <;> simp [next, hb, eq_comm]

theorem next_sign : next .sign (some b) = .ok (some label') ↔
    isDigit b = true ∧ label' = .any2 := by
  by_cases hb : isDigit b = true <;> simp [next, hb, eq_comm]

theorem next_exponent : next .exponent (some b) = .ok (some label') ↔
    (b = 0x2B ∨ b = 0x2D) ∧ label' = .sign ∨ isDigit b = true ∧ label' = .any2 := by
  have hsign : b = 0x2B ∨ b = 0x2D → isDigit b = false := by
    rintro (rfl | rfl) <;> rfl
  by_cases hb : isDigit b = true
  · have hne : ¬ (b = 0x2B ∨ b = 0x2D) := fun h => by simp [hsign h] at hb
    simp [next, hb, hne, eq_comm]
  · by_cases hs : b = 0x2B ∨ b = 0x2D <;> simp [next, hb, hs, eq_comm]

theorem next_decimal2 : next .decimal2 (some b) = .ok (some label') ↔
    isDigit b = true ∧ label' = .decimal2 ∨ (b = 0x65 ∨ b = 0x45) ∧ label' = .exponent := by
  have hletter : b = 0x65 ∨ b = 0x45 → isDigit b = false := by
    rintro (rfl | rfl) <;> rfl
  by_cases hb : isDigit b = true
  · have hne : ¬ (b = 0x65 ∨ b = 0x45) := fun h => by simp [hletter h] at hb
    simp [next, hb, hne, eq_comm]
  · by_cases hs : b = 0x65 ∨ b = 0x45 <;> simp [next, hb, hs, eq_comm]

theorem next_decimal1 : next .decimal1 (some b) = .ok (some label') ↔
    isDigit b = true ∧ label' = .decimal2 := by
  by_cases hb : isDigit b = true <;> simp [next, hb, eq_comm]

theorem next_zero : next .zero (some b) = .ok (some label') ↔
    b = 0x2E ∧ label' = .decimal1 ∨ (b = 0x65 ∨ b = 0x45) ∧ label' = .exponent := by
  by_cases hpoint : b = 0x2E
  · have hletter : ¬ (b = 0x65 ∨ b = 0x45) := by
      rintro (rfl | rfl) <;> cases hpoint
    rw [next, if_pos (congrArg some hpoint), Except.ok.injEq, Option.some.injEq]
    constructor
    · rintro rfl
      exact .inl ⟨hpoint, rfl⟩
    · rintro (⟨_, rfl⟩ | ⟨h, _⟩)
      · rfl
      · exact absurd h hletter
  · by_cases hs : b = 0x65 ∨ b = 0x45
    · rw [next, if_neg (by simpa using hpoint), if_pos (by simpa using hs)]
      simp only [Except.ok.injEq, Option.some.injEq, hs, hpoint, false_and, false_or, true_and]
      exact eq_comm
    · rw [next, if_neg (by simpa using hpoint), if_neg (by simpa using hs)]
      simp [hs, hpoint]

theorem next_any1 : next .any1 (some b) = .ok (some label') ↔
    isDigit b = true ∧ label' = .any1 ∨ next .zero (some b) = .ok (some label') := by
  by_cases hb : isDigit b = true
  · have hzero : ¬ next .zero (some b) = .ok (some label') := by
      rw [next_zero]
      rintro (⟨rfl, _⟩ | ⟨rfl | rfl, _⟩) <;> cases hb
    simp only [hzero, or_false, hb, true_and]
    rw [next, if_pos (by simpa using hb), Except.ok.injEq, Option.some.injEq, eq_comm]
  · have hstep : next .any1 (some b) = next .zero (some b) := if_neg (by simpa using hb)
    rw [hstep]
    exact ⟨.inr, fun h => h.resolve_left fun h => hb h.1⟩

theorem next_minus : next .minus (some b) = .ok (some label') ↔
    b = 0x30 ∧ label' = .zero ∨ (isDigit b = true ∧ b ≠ 0x30) ∧ label' = .any1 := by
  by_cases hzero : b = 0x30
  · rw [next, if_pos (congrArg some hzero), Except.ok.injEq, Option.some.injEq]
    constructor
    · rintro rfl
      exact .inl ⟨hzero, rfl⟩
    · rintro (⟨_, rfl⟩ | ⟨⟨_, hne⟩, _⟩)
      · rfl
      · exact absurd hzero hne
  · rw [next, if_neg (by simpa using hzero)]
    by_cases hb : isDigit b = true
    · simp only [Option.any_some, hb, if_true, Except.ok.injEq, Option.some.injEq, hzero,
        false_and, false_or, true_and, ne_eq, not_false_eq_true]
      exact eq_comm
    · simp [hb, hzero]

end NumberState

open NumberState

theorem run_any2 : NumberRun .any2 number_type text final ↔ Digits text ∧ final = number_type := by
  induction text with
  | nil =>
    rw [numberRun_nil]
    constructor
    · rintro ⟨_, hfinal⟩
      exact ⟨List.forall_mem_nil _, hfinal⟩
    · rintro ⟨_, hfinal⟩
      exact ⟨rfl, hfinal⟩
  | cons b text ih =>
    rw [numberRun_cons, Digits, List.forall_mem_cons, and_assoc]
    constructor
    · rintro ⟨label', h, hr⟩
      obtain ⟨hb, rfl⟩ := next_any2.1 h
      exact ⟨hb, ih.1 hr⟩
    · rintro ⟨hb, hr⟩
      exact ⟨.any2, next_any2.2 ⟨hb, rfl⟩, ih.2 hr⟩

theorem run_sign : NumberRun .sign number_type text final ↔
    ∃ d ds, text = d :: ds ∧ isDigit d = true ∧ Digits ds ∧ final = number_type := by
  constructor
  · intro h
    cases text with
    | nil => cases (numberRun_nil.1 h).1
    | cons d ds =>
      obtain ⟨label', h, hr⟩ := numberRun_cons.1 h
      obtain ⟨hd, rfl⟩ := next_sign.1 h
      exact ⟨d, ds, rfl, hd, run_any2.1 hr⟩
  · rintro ⟨d, ds, rfl, hd, hr⟩
    exact numberRun_cons.2 ⟨.any2, next_sign.2 ⟨hd, rfl⟩, run_any2.2 hr⟩

theorem run_exponent : NumberRun .exponent number_type text final ↔
    ∃ sign d ds, text = sign ++ d :: ds ∧ (sign = [] ∨ sign = [0x2B] ∨ sign = [0x2D]) ∧
      isDigit d = true ∧ Digits ds ∧ final = number_type := by
  constructor
  · intro h
    cases text with
    | nil => cases (numberRun_nil.1 h).1
    | cons b text =>
      obtain ⟨label', h, hr⟩ := numberRun_cons.1 h
      rcases next_exponent.1 h with ⟨hb, rfl⟩ | ⟨hb, rfl⟩
      · obtain ⟨d, ds, rfl, hd⟩ := run_sign.1 hr
        refine ⟨[b], d, ds, rfl, ?_, hd⟩
        rcases hb with rfl | rfl
        · exact .inr (.inl rfl)
        · exact .inr (.inr rfl)
      · exact ⟨[], b, text, rfl, .inl rfl, hb, run_any2.1 hr⟩
  · rintro ⟨sign, d, ds, rfl, hsign, hd, hr⟩
    rcases hsign with rfl | rfl | rfl
    · exact numberRun_cons.2 ⟨.any2, next_exponent.2 (.inr ⟨hd, rfl⟩), run_any2.2 hr⟩
    · exact numberRun_cons.2 ⟨.sign, next_exponent.2 (.inl ⟨.inl rfl, rfl⟩),
        run_sign.2 ⟨d, ds, rfl, hd, hr⟩⟩
    · exact numberRun_cons.2 ⟨.sign, next_exponent.2 (.inl ⟨.inr rfl, rfl⟩),
        run_sign.2 ⟨d, ds, rfl, hd, hr⟩⟩

theorem run_letter (hb : b = 0x65 ∨ b = 0x45) :
    NumberRun .exponent (enter .exponent number_type) text final ↔
      ExpText (b :: text) ∧ final = .float := by
  rw [run_exponent]
  constructor
  · rintro ⟨sign, d, ds, rfl, hsign, hd, hds, hfinal⟩
    exact ⟨⟨b, sign, d, ds, rfl, hb, hsign, hd, hds⟩, hfinal⟩
  · rintro ⟨⟨_, sign, d, ds, htext, _, hsign, hd, hds⟩, hfinal⟩
    obtain ⟨rfl, rfl⟩ := List.cons.inj htext
    exact ⟨sign, d, ds, rfl, hsign, hd, hds, hfinal⟩

theorem run_decimal2 : NumberRun .decimal2 .float text final ↔
    final = .float ∧ ∃ ds e, text = ds ++ e ∧ Digits ds ∧ (e = [] ∨ ExpText e) := by
  induction text with
  | nil =>
    rw [numberRun_nil]
    constructor
    · rintro ⟨_, hfinal⟩
      exact ⟨hfinal, [], [], rfl, List.forall_mem_nil _, .inl rfl⟩
    · rintro ⟨hfinal, _⟩
      exact ⟨rfl, hfinal⟩
  | cons b text ih =>
    rw [numberRun_cons]
    constructor
    · rintro ⟨label', h, hr⟩
      rcases next_decimal2.1 h with ⟨hb, rfl⟩ | ⟨hb, rfl⟩
      · obtain ⟨hfinal, ds, e, rfl, hds, he⟩ := ih.1 hr
        exact ⟨hfinal, b :: ds, e, rfl, List.forall_mem_cons.2 ⟨hb, hds⟩, he⟩
      · obtain ⟨he, hfinal⟩ := (run_letter hb).1 hr
        exact ⟨hfinal, [], _, rfl, List.forall_mem_nil _, .inr he⟩
    · rintro ⟨hfinal, ds, e, htext, hds, he⟩
      cases ds with
      | nil =>
        rcases he with rfl | he
        · cases htext
        obtain rfl : b :: text = e := htext
        have hb : b = 0x65 ∨ b = 0x45 := by
          obtain ⟨_, _, _, _, hcons, hb, _⟩ := he
          rwa [(List.cons.inj hcons).1]
        exact ⟨.exponent, next_decimal2.2 (.inr ⟨hb, rfl⟩), (run_letter hb).2 ⟨he, hfinal⟩⟩
      | cons d ds =>
        obtain ⟨rfl, rfl⟩ := List.cons.inj htext
        obtain ⟨hb, hds⟩ := List.forall_mem_cons.1 hds
        exact ⟨.decimal2, next_decimal2.2 (.inl ⟨hb, rfl⟩), ih.2 ⟨hfinal, ds, e, rfl, hds, he⟩⟩

theorem run_point : NumberRun .decimal1 (enter .decimal1 number_type) text final ↔
    final = .float ∧ ∃ f e, 0x2E :: text = f ++ e ∧ FracText f ∧ (e = [] ∨ ExpText e) := by
  constructor
  · intro h
    cases text with
    | nil => cases (numberRun_nil.1 h).1
    | cons d text =>
      obtain ⟨label', h, hr⟩ := numberRun_cons.1 h
      obtain ⟨hd, rfl⟩ := next_decimal1.1 h
      obtain ⟨hfinal, ds, e, rfl, hds, he⟩ := run_decimal2.1 hr
      exact ⟨hfinal, 0x2E :: d :: ds, e, rfl, ⟨d, ds, rfl, hd, hds⟩, he⟩
  · rintro ⟨hfinal, f, e, htext, ⟨d, ds, rfl, hd, hds⟩, he⟩
    obtain ⟨_, rfl⟩ := List.cons.inj htext
    exact numberRun_cons.2 ⟨.decimal2, next_decimal1.2 ⟨hd, rfl⟩,
      run_decimal2.2 ⟨hfinal, ds, e, rfl, hds, he⟩⟩

theorem run_zero : NumberRun .zero number_type text final ↔
    text = [] ∧ final = number_type ∨ final = .float ∧ FloatTail text := by
  cases text with
  | nil =>
    rw [numberRun_nil]
    constructor
    · rintro ⟨_, hfinal⟩
      exact .inl ⟨rfl, hfinal⟩
    · rintro (⟨_, hfinal⟩ | ⟨_, hne, _⟩)
      · exact ⟨rfl, hfinal⟩
      · exact absurd rfl hne
  | cons b text =>
    rw [numberRun_cons]
    constructor
    · rintro ⟨label', h, hr⟩
      rcases next_zero.1 h with ⟨rfl, rfl⟩ | ⟨hb, rfl⟩
      · obtain ⟨hfinal, f, e, htext, hf, he⟩ := run_point.1 hr
        exact .inr ⟨hfinal, List.cons_ne_nil _ _, f, e, htext, .inr hf, he⟩
      · obtain ⟨he, hfinal⟩ := (run_letter hb).1 hr
        exact .inr ⟨hfinal, List.cons_ne_nil _ _, [], _, rfl, .inl rfl, .inr he⟩
    · rintro (⟨hnil, _⟩ | ⟨hfinal, _, f, e, htext, hf, he⟩)
      · cases hnil
      rcases hf with rfl | hf
      · rcases he with rfl | he
        · cases htext
        obtain rfl : b :: text = e := htext
        have hb : b = 0x65 ∨ b = 0x45 := by
          obtain ⟨_, _, _, _, hcons, hb, _⟩ := he
          rwa [(List.cons.inj hcons).1]
        exact ⟨.exponent, next_zero.2 (.inr ⟨hb, rfl⟩), (run_letter hb).2 ⟨he, hfinal⟩⟩
      · have hb : b = 0x2E := by
          obtain ⟨_, _, rfl, _, _⟩ := hf
          exact (List.cons.inj htext).1
        subst hb
        exact ⟨.decimal1, next_zero.2 (.inl ⟨rfl, rfl⟩), run_point.2 ⟨hfinal, f, e, htext, hf, he⟩⟩

theorem run_any1 : NumberRun .any1 number_type text final ↔
    ∃ ds rest, text = ds ++ rest ∧ Digits ds ∧
      (rest = [] ∧ final = number_type ∨ final = .float ∧ FloatTail rest) := by
  induction text with
  | nil =>
    rw [numberRun_nil]
    constructor
    · rintro ⟨_, hfinal⟩
      exact ⟨[], [], rfl, List.forall_mem_nil _, .inl ⟨rfl, hfinal⟩⟩
    · rintro ⟨ds, rest, htext, _, hrest⟩
      obtain ⟨_, rfl⟩ := List.append_eq_nil_iff.1 htext.symm
      rcases hrest with ⟨_, hfinal⟩ | ⟨_, hne, _⟩
      · exact ⟨rfl, hfinal⟩
      · exact absurd rfl hne
  | cons b text ih =>
    rw [numberRun_cons]
    constructor
    · rintro ⟨label', h, hr⟩
      rcases next_any1.1 h with ⟨hb, rfl⟩ | h
      · obtain ⟨ds, rest, rfl, hds, hrest⟩ := ih.1 hr
        exact ⟨b :: ds, rest, rfl, List.forall_mem_cons.2 ⟨hb, hds⟩, hrest⟩
      · exact ⟨[], _, rfl, List.forall_mem_nil _, run_zero.1 (.step h hr)⟩
    · rintro ⟨ds, rest, htext, hds, hrest⟩
      cases ds with
      | nil =>
        obtain rfl : b :: text = rest := htext
        obtain ⟨label', h, hr⟩ := numberRun_cons.1 (run_zero.2 hrest)
        exact ⟨label', next_any1.2 (.inr h), hr⟩
      | cons d ds =>
        obtain ⟨rfl, rfl⟩ := List.cons.inj htext
        obtain ⟨hb, hds⟩ := List.forall_mem_cons.1 hds
        exact ⟨.any1, next_any1.2 (.inl ⟨hb, rfl⟩), ih.2 ⟨ds, rest, rfl, hds, hrest⟩⟩

theorem intText_head (h : IntText i) : ∃ d ds, i = d :: ds ∧ isDigit d = true := by
  rcases h with rfl | ⟨d, ds, rfl, hd, _⟩
  · exact ⟨0x30, [], rfl, rfl⟩
  · exact ⟨d, ds, rfl, hd⟩

def firstDigit (b : UInt8) : NumberState := if b = 0x30 then .zero else .any1

theorem run_firstDigit (hb : isDigit b = true) : NumberRun (firstDigit b) number_type text final ↔
    ∃ i t, b :: text = i ++ t ∧ IntText i ∧
      (t = [] ∧ final = number_type ∨ final = .float ∧ FloatTail t) := by
  by_cases hzero : b = 0x30
  · rw [firstDigit, if_pos hzero, run_zero]
    constructor
    · intro h
      exact ⟨[b], text, rfl, .inl (by rw [hzero]), h⟩
    · rintro ⟨i, t, htext, rfl | ⟨d, ds, rfl, _, hd, _⟩, h⟩
      · obtain ⟨_, rfl⟩ := List.cons.inj htext
        exact h
      · exact absurd ((List.cons.inj htext).1.symm.trans hzero) hd
  · rw [firstDigit, if_neg hzero, run_any1]
    constructor
    · rintro ⟨ds, rest, rfl, hds, h⟩
      exact ⟨b :: ds, rest, rfl, .inr ⟨b, ds, rfl, hb, hzero, hds⟩, h⟩
    · rintro ⟨i, t, htext, rfl | ⟨d, ds, rfl, _, _, hds⟩, h⟩
      · exact absurd (List.cons.inj htext).1 hzero
      · exact ⟨ds, t, (List.cons.inj htext).2, hds, h⟩

theorem run_minus : NumberRun .minus number_type text final ↔
    ∃ i t, text = i ++ t ∧ IntText i ∧
      (t = [] ∧ final = number_type ∨ final = .float ∧ FloatTail t) := by
  have hnext : ∀ b label', next .minus (some b) = .ok (some label') ↔
      isDigit b = true ∧ label' = firstDigit b := by
    intro b label'
    rw [next_minus, firstDigit]
    by_cases hzero : b = 0x30
    · subst hzero
      simp [isDigit]
    · simp [hzero]
  have henter : ∀ b, (firstDigit b).enter number_type = number_type := by
    intro b
    rw [firstDigit]
    split_ifs <;> rfl
  constructor
  · intro h
    cases text with
    | nil => cases (numberRun_nil.1 h).1
    | cons b text =>
      obtain ⟨label', h, hr⟩ := numberRun_cons.1 h
      obtain ⟨hb, rfl⟩ := (hnext b label').1 h
      rw [henter] at hr
      exact (run_firstDigit hb).1 hr
  · rintro ⟨i, t, rfl, hi, h⟩
    obtain ⟨d, ds, rfl, hd⟩ := intText_head hi
    refine numberRun_cons.2 ⟨firstDigit d, (hnext d _).2 ⟨hd, rfl⟩, ?_⟩
    rw [henter]
    exact (run_firstDigit hd).2 ⟨d :: ds, t, rfl, hi, h⟩

theorem numberText_cases (h : NumberText number_type text) :
    ∃ i t, IntText i ∧ (text = i ++ t ∧
        (t = [] ∧ number_type = .unsigned ∨ number_type = .float ∧ FloatTail t) ∨
      text = 0x2D :: (i ++ t) ∧
        (t = [] ∧ number_type = .integer ∨ number_type = .float ∧ FloatTail t)) := by
  cases h with
  | unsigned hi => exact ⟨text, [], hi, .inl ⟨(List.append_nil _).symm, .inl ⟨rfl, rfl⟩⟩⟩
  | @integer i hi =>
    refine ⟨i, [], hi, .inr ⟨?_, .inl ⟨rfl, rfl⟩⟩⟩
    rw [List.append_nil]
  | @float m i t hm hi ht =>
    rcases hm with rfl | rfl
    · exact ⟨i, t, hi, .inl ⟨rfl, .inr ⟨rfl, ht⟩⟩⟩
    · exact ⟨i, t, hi, .inr ⟨rfl, .inr ⟨rfl, ht⟩⟩⟩

theorem numberText_minus : NumberText number_type (0x2D :: text) ↔
    NumberRun .minus .integer text number_type := by
  rw [run_minus]
  constructor
  · intro h
    obtain ⟨i, t, hi, ⟨htext, _⟩ | ⟨htext, h⟩⟩ := numberText_cases h
    · obtain ⟨d, ds, rfl, hd⟩ := intText_head hi
      rw [← (List.cons.inj htext).1] at hd
      cases hd
    · exact ⟨i, t, (List.cons.inj htext).2, hi, h⟩
  · rintro ⟨i, t, rfl, hi, ⟨rfl, rfl⟩ | ⟨rfl, ht⟩⟩
    · rw [List.append_nil]
      exact .integer hi
    · exact .float (.inr rfl) hi ht

theorem numberText_digit (hb : isDigit b = true) : NumberText number_type (b :: text) ↔
    NumberRun (firstDigit b) .unsigned text number_type := by
  rw [run_firstDigit hb]
  constructor
  · intro h
    obtain ⟨i, t, hi, ⟨htext, h⟩ | ⟨htext, _⟩⟩ := numberText_cases h
    · exact ⟨i, t, htext, hi, h⟩
    · exact absurd (List.cons.inj htext).1 (isDigit_ne_minus hb)
  · rintro ⟨i, t, htext, hi, ⟨rfl, rfl⟩ | ⟨rfl, ht⟩⟩
    · rw [htext, List.append_nil]
      exact .unsigned hi
    · rw [htext]
      exact .float (.inl rfl) hi ht

theorem numberText_head (h : NumberText number_type text) :
    ∃ b more, text = b :: more ∧ (b = 0x2D ∨ isDigit b = true) := by
  obtain ⟨i, t, hi, ⟨rfl, _⟩ | ⟨rfl, _⟩⟩ := numberText_cases h
  · obtain ⟨d, ds, rfl, hd⟩ := intText_head hi
    exact ⟨d, ds ++ t, rfl, .inr hd⟩
  · exact ⟨0x2D, i ++ t, rfl, .inl rfl⟩

def Stops (more : Bytes) : Prop :=
  ∀ b, more.head? = some b → isDigit b = false ∧ b ≠ 0x2E ∧ b ≠ 0x65 ∧ b ≠ 0x45

theorem next_stops {label : NumberState} (hl : label.next none = .ok none) (hs : Stops more) :
    label.next more.head? = .ok none := by
  cases hc : more.head? with
  | none => exact hl
  | some b =>
    obtain ⟨hb, hpoint, he, hE⟩ := hs b hc
    cases label with
    | minus => cases hl
    | decimal1 => cases hl
    | exponent => cases hl
    | sign => cases hl
    | _ => simp [next, hb, hpoint, he, hE]

theorem next_final {label : NumberState} (h : label.next c = .ok none) : label.next none = .ok none := by
  cases label with
  | minus =>
    rw [next] at h
    split_ifs at h <;> cases h
  | decimal1 =>
    rw [next] at h
    split_ifs at h <;> cases h
  | exponent =>
    rw [next] at h
    split_ifs at h <;> cases h
  | sign =>
    rw [next] at h
    split_ifs at h <;> cases h
  | _ => rfl

namespace Lexer

variable {strtod : Bytes → Double} {lx : Lexer} {label : NumberState} {number_type : NumberType}

theorem scanNumberFrom_done (h : label.next lx.get.current = .ok none) :
    lx.scanNumberFrom strtod label number_type = lx.get.scanNumberDone strtod number_type := by
  rw [scanNumberFrom]
  split <;> simp_all

theorem scanNumberFrom_step (h : label.next lx.get.current = .ok (some label')) :
    lx.scanNumberFrom strtod label number_type =
      (lx.get.add lx.get.current.toList).scanNumberFrom strtod label'
        (label'.enter number_type) := by
  rw [scanNumberFrom]
  split <;> simp_all

theorem scanNumberFrom_error (h : label.next lx.get.current = .error e) :
    lx.scanNumberFrom strtod label number_type = (.parseError e, lx.get) := by
  rw [scanNumberFrom]
  split <;> simp_all

theorem scanNumberFrom_run (h : NumberRun label number_type text final)
    (hr : lx.rest = text ++ more) (hs : Stops more) :
    ∃ lx', lx.scanNumberFrom strtod label number_type =
      (numberToken strtod final (lx.token_buffer ++ text), lx') ∧ lx'.rest = more := by
  induction h generalizing lx with
  | done h =>
    rw [List.nil_append] at hr
    refine ⟨lx.get.unget, ?_, ?_⟩
    · rw [scanNumberFrom_done, scanNumberDone, List.append_nil]
      · rfl
      · rw [current_get, hr]
        exact next_stops h hs
    · rw [rest_unget_get, hr]
  | @step label b label' number_type text final h _ ih =>
    obtain ⟨hcurrent, hrest⟩ := get_of_rest hr
    rw [← rest_add lx.get lx.get.current.toList] at hrest
    obtain ⟨lx', hscan, hmore⟩ := ih hrest
    refine ⟨lx', ?_, hmore⟩
    rw [scanNumberFrom_step (by rw [hcurrent]; exact h), hscan, token_buffer_add, hcurrent,
      List.append_assoc]
    rfl

theorem run_of_scanNumberFrom (h : lx.scanNumberFrom strtod label number_type = (t, lx'))
    (ht : ∀ e, t ≠ .parseError e) :
    ∃ text final, NumberRun label number_type text final ∧ lx.rest = text ++ lx'.rest ∧
      t = numberToken strtod final (lx.token_buffer ++ text) := by
  induction hn : lx.rest.length using Nat.strong_induction_on
    generalizing lx label number_type with
  | _ n ih =>
    subst hn
    rcases hc : label.next lx.get.current with e | _ | label'
    · rw [scanNumberFrom_error hc] at h
      exact absurd (Prod.mk.inj h).1.symm (ht e)
    · rw [scanNumberFrom_done hc, scanNumberDone] at h
      obtain ⟨rfl, rfl⟩ := Prod.mk.inj h
      refine ⟨[], number_type, .done (next_final hc), ?_, ?_⟩
      · rw [rest_unget_get, List.nil_append]
      · rw [List.append_nil]
        rfl
    · rw [scanNumberFrom_step hc] at h
      cases hcurrent : lx.get.current with
      | none =>
        rw [hcurrent] at hc
        exact absurd hc (next_none label)
      | some b =>
        rw [hcurrent] at h hc
        obtain ⟨text, final, hrun, hrest, rfl⟩ := ih _ (length_get_lt hcurrent) h rfl
        refine ⟨b :: text, final, .step hc hrun, ?_, ?_⟩
        · rw [rest_of_get hcurrent, List.cons_append, ← hrest]
          rfl
        · rw [token_buffer_add, List.append_assoc]
          rfl

theorem scanNumber_first (strtod : Bytes → Double) (hc : lx.current = some b)
    (hb : b = 0x2D ∨ isDigit b = true) :
    ∃ label number_type, lx.scanNumber strtod =
        (lx.reset.add [b]).scanNumberFrom strtod label number_type ∧
      ∀ text final, NumberText final (b :: text) ↔ NumberRun label number_type text final := by
  rw [scanNumber, hc]
  rcases hb with rfl | hb
  · exact ⟨.minus, .integer, if_pos rfl, fun text final => numberText_minus⟩
  · refine ⟨firstDigit b, .unsigned, ?_, fun text final => numberText_digit hb⟩
    rw [if_neg (by simpa using isDigit_ne_minus hb), firstDigit]
    by_cases hzero : b = 0x30
    · rw [if_pos (congrArg some hzero), if_pos hzero]
      rfl
    · rw [if_neg (by simpa using hzero), if_neg hzero]
      rfl

theorem scanNumber_text (hc : lx.current = some b) (ht : NumberText final (b :: text))
    (hr : lx.rest = text ++ more) (hs : Stops more) :
    ∃ lx', lx.scanNumber strtod = (numberToken strtod final (b :: text), lx') ∧
      lx'.rest = more := by
  obtain ⟨b', more', hcons, hb⟩ := numberText_head ht
  obtain ⟨rfl, rfl⟩ := List.cons.inj hcons
  obtain ⟨label, number_type, hscan, hrun⟩ := scanNumber_first strtod hc hb
  rw [← lx.rest_reset, ← lx.reset.rest_add [b]] at hr
  rw [hscan]
  exact scanNumberFrom_run ((hrun text final).1 ht) hr hs

theorem text_of_scanNumber (hc : lx.current = some b) (hb : b = 0x2D ∨ isDigit b = true)
    (h : lx.scanNumber strtod = (t, lx')) (ht : ∀ e, t ≠ .parseError e) :
    ∃ text final, NumberText final (b :: text) ∧ lx.rest = text ++ lx'.rest ∧
      t = numberToken strtod final (b :: text) := by
  obtain ⟨label, number_type, hscan, hrun⟩ := scanNumber_first strtod hc hb
  rw [hscan] at h
  obtain ⟨text, final, hn, hrest, rfl⟩ := run_of_scanNumberFrom h ht
  exact ⟨text, final, (hrun text final).2 hn, hrest, rfl⟩

end Lexer

theorem head_toDigits {n : Nat} (h : 0 < n) : (Nat.toDigits 10 n).head? ≠ some '0' := by
  induction n using Nat.strong_induction_on with
  | _ n ih =>
    by_cases hn : n < 10
    · rw [Nat.toDigits_of_lt_base hn]
      simpa using Nat.ne_of_gt h
    · rw [Nat.toDigits_of_base_le (by decide) (by omega), List.head?_append,
        List.head?_eq_some_head Nat.toDigits_ne_nil, Option.some_or,
        ← List.head?_eq_some_head Nat.toDigits_ne_nil]
      exact ih (n / 10) (by omega) (by omega)

theorem intText_repr (n : Nat) : IntText (ascii n.repr) := by
  obtain ⟨c, s, htext, hc, hs, _⟩ := ascii_repr n
  by_cases hn : n = 0
  · subst hn
    exact .inl rfl
  · refine .inr ⟨c, s, htext, hc, ?_, hs⟩
    rintro rfl
    have hhead := head_toDigits (Nat.pos_of_ne_zero hn)
    rw [ascii, Nat.toList_repr] at htext
    obtain ⟨d, ds, hdigits, hd, _⟩ := List.map_eq_cons_iff.1 htext
    rw [hdigits] at hhead
    have hdigit : d.isDigit = true := by
      apply Nat.isDigit_of_mem_toDigits (b := 10) (n := n) (by decide) le_rfl
      rw [hdigits]
      exact List.mem_cons_self
    have hval := (isDigit_digit hdigit).2
    rw [hd] at hval
    apply hhead
    rw [List.head?_cons]
    exact congrArg some (Char.toNat_inj.1 hval.symm)

theorem numberText_unsigned (n : UInt64) :
    NumberText .unsigned (ascii (toString n.toNat)) := .unsigned (intText_repr n.toNat)

theorem numberToken_unsigned (strtod : Bytes → Double) (n : UInt64) :
    numberToken strtod .unsigned (ascii (toString n.toNat)) = .valueUnsigned n := by
  obtain ⟨c, s, htext, _, _, hvalue⟩ := ascii_repr n.toNat
  have hrepr : ascii (toString n.toNat) = c :: s := htext
  rw [numberToken, strtoull, hrepr, hvalue, if_pos n.toNat_lt, UInt64.ofNat_toNat]
  rfl

theorem toString_neg {i : Int} (h : i < 0) :
    ascii (toString i) = 0x2D :: ascii (-i).toNat.repr := by
  cases i with
  | ofNat n => exact absurd h (Int.not_lt.2 (Int.natCast_nonneg n))
  | negSucc n => simp [ascii, Int.toString_eq_repr, Int.repr]

theorem numberText_integer {i : Int64} (h : i.toInt < 0) :
    NumberText .integer (ascii (toString i.toInt)) := by
  rw [toString_neg h]
  exact .integer (intText_repr _)

theorem numberToken_integer (strtod : Bytes → Double) (i : Int64) :
    numberToken strtod .integer (ascii (toString i.toInt)) = .valueInteger i := by
  rw [numberToken, stoll_eq (numeral_toString i.toInt), if_pos (fitsInt64_toInt i),
    Int64.ofInt_toInt]
  rfl

end OnnxruntimeServer
