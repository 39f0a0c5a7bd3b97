import OnnxruntimeServer.ThreadPool

namespace OnnxruntimeServer.BuiltinThreadPool
set_option autoImplicit true
open Transition

namespace Stage

/-- A worker that will look at the queue before it can sleep, or a client that has yet to notify
one. -/
def coming : Stage → Bool
  | .lock | .wait | .relock | .test | .take | .pushed _ | .notify _ => true
  | _ => false

/-- How many more steps a thread makes at most until it sleeps, ends or is idle, where each task
that it pushes makes up for the steps of the worker that runs it. -/
def work : Stage → Nat
  | .asleep | .exited | .idle => 0
  | .sleep | .leave | .take | .throw | .cleared => 1
  | .test | .clear => 2
  | .wait | .flush => 3
  | .lock | .relock => 4
  | .run _ | .notify _ => 5
  | .unlock _ | .pushed _ => 6
  | .push _ => 13
  | .check _ => 14
  | .enqueue _ => 15

theorem of_coming {stage : Stage} (hc : stage.coming = true) (hw : stage.ofWorker = false) :
    ∃ task, stage = .pushed task ∨ stage = .notify task := by
  cases stage with
  | pushed task => exact ⟨task, .inl rfl⟩
  | notify task => exact ⟨task, .inr rfl⟩
  | _ => simp_all [coming, ofWorker]

end Stage

def Action.quiet : Action n κ → Bool
  | .step _ | .notifyOne _ _ => true
  | _ => false

section
variable {stage : Thread n κ → Stage} {thread : Thread n κ} {x : Stage} {count count' : Nat}

/-- As many threads are on their way to a task, or to wake a worker for one. -/
def Attended (count : Nat) (stage : Thread n κ → Stage) : Prop :=
  ∃ threads : Finset (Thread n κ), (∀ thread ∈ threads, (stage thread).coming = true) ∧
    count ≤ threads.card

theorem attended_zero (stage : Thread n κ → Stage) : Attended 0 stage :=
  ⟨∅, by simp, Nat.zero_le _⟩

theorem Attended.move [DecidableEq κ] (h : Attended count stage)
    (hle : count' + (stage thread).coming.toNat ≤ count + x.coming.toNat) :
    Attended count' (Function.update stage thread x) := by
  obtain ⟨threads, hc, hcard⟩ := h
  have hothers : ∀ t ∈ threads.erase thread, (Function.update stage thread x t).coming = true := by
    intro t hmem
    obtain ⟨hne, hmem⟩ := Finset.mem_erase.1 hmem
    rw [Function.update_of_ne hne]
    exact hc t hmem
  have herase : threads.card ≤ (threads.erase thread).card + (stage thread).coming.toNat := by
    by_cases hin : thread ∈ threads
    · rw [hc thread hin, Bool.toNat_true, Finset.card_erase_add_one hin]
    · rw [Finset.erase_eq_of_notMem hin]
      exact Nat.le_add_right _ _
  cases hx : x.coming with
  | true =>
    refine ⟨insert thread (threads.erase thread), ?_, ?_⟩
    · intro t hmem
      rcases Finset.mem_insert.1 hmem with rfl | hmem
      · rwa [Function.update_self]
      · exact hothers t hmem
    · rw [Finset.card_insert_of_notMem (Finset.notMem_erase _ _)]
      rw [hx, Bool.toNat_true] at hle
      omega
  | false =>
    rw [hx, Bool.toNat_false] at hle
    exact ⟨threads.erase thread, hothers, by omega⟩

end

namespace Pool
variable {s s' : Pool n κ} {thread : Thread n κ} {x : Stage}

/-- No worker sleeps, or is about to, while a task is left to itself. -/
structure Conserving (s : Pool n κ) : Prop where
  sleep : ∀ thread, s.stage thread = .sleep → s.tasks = []
  asleep : ∀ thread, s.stage thread = .asleep → Attended s.tasks.length s.stage

theorem attended_of_empty (h : s.tasks = []) (stage : Thread n κ → Stage) :
    Attended s.tasks.length stage := by
  rw [h]
  exact attended_zero stage

variable [DecidableEq κ]

theorem acquire_tasks (ha : s.acquire thread x = some s') :
    s'.stage = Function.update s.stage thread x ∧ s'.tasks = s.tasks := by
  rw [acquire] at ha
  split_ifs at ha
  obtain rfl := Option.some.inj ha
  exact ⟨rfl, rfl⟩

@[simp] theorem move_tasks (s : Pool n κ) (thread : Thread n κ) (stage : Stage) :
    (s.move thread stage).tasks = s.tasks := rfl

/-- What a step of a thread does to the queue and to the work that is left. -/
structure Progress (s s' : Pool n κ) (thread : Thread n κ) (x : Stage) : Prop where
  stage : s'.stage = Function.update s.stage thread x
  sleep : x = .sleep → s'.tasks = []
  asleep : x = .asleep → s.stage thread = .sleep
  queue : s'.tasks = s.tasks ∨ (s.stage thread).holds = true
  coming : s'.tasks = [] ∨
    s'.tasks.length + (s.stage thread).coming.toNat ≤ s.tasks.length + x.coming.toNat
  work : 6 * s'.tasks.length + x.work < 6 * s.tasks.length + (s.stage thread).work

theorem Progress.of_move (hx : x ≠ .sleep) (hx' : x = .asleep → s.stage thread = .sleep)
    (hc : (s.stage thread).coming.toNat ≤ x.coming.toNat) (hw : x.work < (s.stage thread).work)
    (hst : s'.stage = Function.update s.stage thread x) (ht : s'.tasks = s.tasks) :
    s.Progress s' thread x where
  stage := hst
  sleep he := absurd he hx
  asleep := hx'
  queue := .inl ht
  coming := .inr (by rw [ht]; omega)
  work := by rw [ht]; omega

theorem step_progress (hs : s.step thread = some s') : ∃ x, s.Progress s' thread x := by
  rw [step] at hs
  cases hst : s.stage thread with
  | lock | relock | enqueue task | flush =>
    simp only [hst] at hs
    obtain ⟨hstage, htasks⟩ := acquire_tasks hs
    exact ⟨_, .of_move (by simp) (by simp) (by simp [hst, Stage.coming]) (by simp [hst, Stage.work])
      hstage htasks⟩
  | wait =>
    simp only [hst, Option.some.injEq] at hs
    split_ifs at hs with hp
    · subst hs
      exact ⟨_, .of_move (by simp) (by simp) (by simp [hst, Stage.coming])
        (by simp [hst, Stage.work]) rfl rfl⟩
    · subst hs
      have hempty : s.tasks = [] := by
        simp only [Bool.or_eq_true, Bool.not_eq_true', List.isEmpty_eq_false_iff, not_or,
          not_not] at hp
        exact hp.2
      exact ⟨.sleep, rfl, fun _ => hempty, by simp, .inl rfl, .inl hempty,
        by simp [hst, Stage.work]⟩
  | test =>
    simp only [hst, Option.some.injEq] at hs
    split_ifs at hs with hp
    · subst hs
      have hempty : s.tasks = [] := by
        simp only [Bool.and_eq_true, List.isEmpty_iff] at hp
        exact hp.2
      exact ⟨.leave, rfl, by simp, by simp, .inl rfl, .inl hempty,
        by simp [hst, Stage.work]⟩
    · subst hs
      exact ⟨_, .of_move (by simp) (by simp) (by simp [hst, Stage.coming])
        (by simp [hst, Stage.work]) rfl rfl⟩
  | check task =>
    simp only [hst, Option.some.injEq] at hs
    split_ifs at hs with hp
    · subst hs
      exact ⟨_, .of_move (by simp) (by simp) (by simp [hst, Stage.coming])
        (by simp [hst, Stage.work]) rfl rfl⟩
    · subst hs
      exact ⟨_, .of_move (by simp) (by simp) (by simp [hst, Stage.coming])
        (by simp [hst, Stage.work]) rfl rfl⟩
  | take =>
    cases ht : s.tasks with
    | nil => simp [hst, ht] at hs
    | cons task tasks =>
      simp only [hst, ht, Option.some.injEq] at hs
      subst hs
      refine ⟨.unlock task, rfl, by simp, by simp, .inr (by rw [hst]; rfl), .inr ?_, ?_⟩
      · simp [hst, ht, Stage.coming]
      · simp [hst, ht, Stage.work]
        omega
  | asleep | exited | idle | notify task => simp [hst] at hs
  | push task =>
    simp only [hst, Option.some.injEq] at hs
    subst hs
    refine ⟨.pushed task, rfl, by simp, by simp, .inr (by rw [hst]; rfl), .inr ?_, ?_⟩
    · simp [hst, Stage.coming]
    · simp [hst, Stage.work]
      omega
  | clear =>
    simp only [hst, Option.some.injEq] at hs
    subst hs
    exact ⟨.cleared, rfl, by simp, by simp, .inr (by rw [hst]; rfl), .inl rfl,
      by simp [hst, Stage.work]⟩
  | _ =>
    simp only [hst, Option.some.injEq] at hs
    subst hs
    exact ⟨_, .of_move (by simp) (by simp [hst]) (by simp [hst, Stage.coming])
      (by simp [hst, Stage.work]) rfl rfl⟩

/-- A client that notifies wakes a worker if there is one that sleeps. -/
theorem notifyOne_cases (hs : s.notifyOne i w = some s') :
    ∃ task, s.stage (.client i) = .notify task ∧ s'.tasks = s.tasks ∧
      ((∃ w, s.stage (.worker w) = .asleep ∧ s'.stage = Function.update
          (Function.update s.stage (.worker w) .relock) (.client i) .idle) ∨
        (∀ w, s.stage (.worker w) ≠ .asleep) ∧
          s'.stage = Function.update s.stage (.client i) .idle) := by
  rw [notifyOne.eq_def] at hs
  split at hs
  case h_1 task w hst =>
    split_ifs at hs with hw
    obtain rfl := Option.some.inj hs
    exact ⟨_, hst, rfl, .inl ⟨w, hw, rfl⟩⟩
  case h_2 task hst =>
    split_ifs at hs with hw
    obtain rfl := Option.some.inj hs
    exact ⟨_, hst, rfl, .inr ⟨hw, rfl⟩⟩
  case h_3 => cases hs

theorem Conserving.step (h : s.Conserving) (hl : s.Locked) (hs : s.step thread = some s') :
    s'.Conserving := by
  obtain ⟨x, hp⟩ := step_progress hs
  constructor
  · intro other ho
    rw [hp.stage] at ho
    rcases update_eq ho with ⟨_, hx⟩ | ⟨hne, ho⟩
    · exact hp.sleep hx
    · rcases hp.queue with ht | hholds
      · rw [ht]
        exact h.sleep other ho
      · have halone := hl.alone hholds hne
        rw [ho] at halone
        cases halone
  · intro other ho
    rcases hp.coming with hempty | hle
    · exact attended_of_empty hempty _
    · rw [hp.stage] at ho ⊢
      rcases update_eq ho with ⟨_, hx⟩ | ⟨_, ho⟩
      · exact (attended_of_empty (h.sleep thread (hp.asleep hx)) s.stage).move hle
      · exact (h.asleep other ho).move hle

theorem Conserving.move (h : s.Conserving) (hx : x ≠ .sleep) (hx' : x ≠ .asleep)
    (hc : (s.stage thread).coming.toNat ≤ x.coming.toNat)
    (hst : s'.stage = Function.update s.stage thread x) (ht : s'.tasks = s.tasks) :
    s'.Conserving := by
  constructor
  · intro other ho
    rw [hst] at ho
    rcases update_eq ho with ⟨_, he⟩ | ⟨_, ho⟩
    · exact absurd he hx
    · rw [ht]
      exact h.sleep other ho
  · intro other ho
    rw [hst] at ho ⊢
    rcases update_eq ho with ⟨_, he⟩ | ⟨_, ho⟩
    · exact absurd he hx'
    · rw [ht]
      exact (h.asleep other ho).move (Nat.add_le_add_left hc _)

theorem Conserving.notifyOne (h : s.Conserving) (hr : s.Roles)
    (hs : s.notifyOne i w = some s') : s'.Conserving := by
  obtain ⟨task, hst, ht, ⟨w, hw, hstage⟩ | ⟨hw, hstage⟩⟩ := notifyOne_cases hs
  · constructor
    · intro other ho
      rw [hstage] at ho
      rcases update_eq ho with ⟨_, he⟩ | ⟨_, ho⟩
      · cases he
      · rcases update_eq ho with ⟨_, he⟩ | ⟨_, ho⟩
        · cases he
        · rw [ht]
          exact h.sleep other ho
    · intro other _
      rw [hstage, ht]
      have hwoken : Attended (s.tasks.length + 1) (Function.update s.stage (.worker w) .relock) :=
        (h.asleep _ hw).move (by simp [hw, Stage.coming])
      exact hwoken.move (by simp [hst, Stage.coming])
  · constructor
    · intro other ho
      rw [hstage] at ho
      rcases update_eq ho with ⟨_, he⟩ | ⟨_, ho⟩
      · cases he
      · rw [ht]
        exact h.sleep other ho
    · intro other ho
      rw [hstage] at ho
      rcases update_eq ho with ⟨_, he⟩ | ⟨_, ho⟩
      · cases he
      · cases other with
        | worker w => exact absurd ho (hw w)
        | client j =>
          have hj := hr j
          rw [ho] at hj
          cases hj

theorem Conserving.next (h : s.Conserving) (hl : s.Locked) (hr : s.Roles)
    (hs : s.next a = some s') : s'.Conserving := by
  cases a with
  | step thread => exact h.step hl hs
  | notifyOne i w => exact h.notifyOne hr hs
  | enqueue i | flush i | spuriousWake w =>
    rw [Pool.next] at hs
    split_ifs at hs with hi
    obtain rfl := Option.some.inj hs
    exact h.move (by simp) (by simp) (by simp [hi, Stage.coming]) rfl rfl
  | stop | join =>
    rw [Pool.next] at hs
    split_ifs at hs
    obtain rfl := Option.some.inj hs
    exact ⟨h.sleep, h.asleep⟩
  | notifyAll =>
    rw [Pool.next] at hs
    split_ifs at hs
    obtain rfl := Option.some.inj hs
    constructor
    · intro thread ht
      apply h.sleep thread
      cases hst : s.stage thread <;> simp_all [Stage.wake]
    · intro thread ht
      cases hst : s.stage thread <;> simp_all [Stage.wake]

theorem Runs.conserving (h : s.Runs) : s.Conserving := by
  refine Reachable.invariant h ?_ fun s s' hr hc ⟨a, ha⟩ =>
    hc.next (Runs.locked hr) (Runs.roles hr) ha
  rintro _ rfl
  exact ⟨fun _ _ => rfl, fun _ _ => attended_of_empty rfl _⟩

theorem ofWorker_next (hs : s.next a = some s') (thread : Thread n κ) :
    (s'.stage thread).ofWorker = (s.stage thread).ofWorker := by
  have hmove : ∀ (stage : Thread n κ → Stage) (other : Thread n κ) (x : Stage),
      x.ofWorker = (stage other).ofWorker →
      (Function.update stage other x thread).ofWorker = (stage thread).ofWorker := by
    intro stage other x hx
    by_cases ho : thread = other
    · rw [ho, Function.update_self, hx]
    · rw [Function.update_of_ne ho]
  cases a with
  | step other =>
    obtain ⟨x, ⟨hst, _⟩, hx, _⟩ := step_stage hs
    rw [hst, hmove _ _ _ hx]
  | notifyOne i w =>
    obtain ⟨task, hst, _, ⟨w, hw, hstage⟩ | ⟨_, hstage⟩⟩ := notifyOne_cases hs
    · rw [hstage, hmove _ _ _ (by simp [hst, Stage.ofWorker]),
        hmove _ _ _ (by rw [hw]; rfl)]
    · rw [hstage, hmove _ _ _ (by rw [hst]; rfl)]
  | enqueue i | flush i | spuriousWake w =>
    rw [Pool.next] at hs
    split_ifs at hs with hi
    obtain rfl := Option.some.inj hs
    exact hmove _ _ _ (by rw [hi]; rfl)
  | stop | join =>
    rw [Pool.next] at hs
    split_ifs at hs
    obtain rfl := Option.some.inj hs
    rfl
  | notifyAll =>
    rw [Pool.next] at hs
    split_ifs at hs
    obtain rfl := Option.some.inj hs
    cases hst : s.stage thread <;> simp [hst, Stage.wake, Stage.ofWorker]

theorem Runs.worker (h : s.Runs) (w : Fin n) : (s.stage (.worker w)).ofWorker = true := by
  refine @Reachable.invariant _ _ _ s (fun s => (s.stage (.worker w)).ofWorker = true) h ?_ ?_
  · rintro _ rfl
    rfl
  · rintro s s' - hw ⟨a, ha⟩
    rw [ofWorker_next ha, hw]

/-- While a worker sleeps, each queued task has a thread of its own on its way to it or to wake a
worker for it; and while they all sleep, a call that has pushed a task has yet to notify. -/
theorem work_conserving (h : s.Runs) :
    (∀ w, s.stage (.worker w) = .asleep → Attended s.tasks.length s.stage) ∧
    (0 < n → (∀ w, s.stage (.worker w) = .asleep) → s.tasks ≠ [] →
      ∃ i task, s.stage (.client i) = .pushed task ∨ s.stage (.client i) = .notify task) := by
  refine ⟨fun w => h.conserving.asleep _, ?_⟩
  intro hn hw hne
  obtain ⟨threads, hc, hle⟩ := h.conserving.asleep _ (hw ⟨0, hn⟩)
  have hpos : 0 < threads.card := (List.length_pos_of_ne_nil hne).trans_le hle
  obtain ⟨thread, hmem⟩ := Finset.card_pos.1 hpos
  have hcoming := hc thread hmem
  cases thread with
  | worker w =>
    rw [hw w] at hcoming
    cases hcoming
  | client i => exact ⟨i, Stage.of_coming hcoming (h.roles i)⟩

/-- Nothing is left to do: no task is queued or running, no call is under way, and the workers sleep
or have ended. -/
structure Settled (s : Pool n κ) : Prop where
  queue_mutex : s.queue_mutex = none
  tasks : s.tasks = []
  workers : ∀ w, s.stage (.worker w) = .asleep ∨ s.stage (.worker w) = .exited
  clients : ∀ i, s.stage (.client i) = .idle
  done : ∀ task ∈ s.ledger.pushed, task ∈ s.ledger.finished ∨ task ∈ s.ledger.flushed

theorem step_eq_none (hs : s.step thread = none) (hf : s.stage thread = .take → s.tasks ≠ []) :
    (s.stage thread).holds = false ∧ (s.queue_mutex = none → s.stage thread = .asleep ∨
      s.stage thread = .exited ∨ s.stage thread = .idle ∨
        ∃ task, s.stage thread = .notify task) := by
  rw [step] at hs
  cases hst : s.stage thread with
  | lock | relock | enqueue task | flush =>
    simp only [hst, acquire, ite_eq_right_iff, reduceCtorEq, imp_false] at hs
    exact ⟨rfl, fun hm => absurd hm hs⟩
  | take =>
    cases ht : s.tasks with
    | nil => exact absurd ht (hf hst)
    | cons task tasks => simp [hst, ht] at hs
  | asleep | exited | idle | notify task => simp [Stage.holds]
  | _ => simp [hst] at hs

theorem notify_progress (hst : s.stage (.client i) = .notify task) :
    ∃ w, s.next (.notifyOne i w) ≠ none := by
  by_cases hw : ∀ w, s.stage (.worker w) ≠ .asleep
  · exact ⟨none, by simp [Pool.next, Pool.notifyOne, hst, hw]⟩
  · push Not at hw
    obtain ⟨w, hw⟩ := hw
    exact ⟨some w, by simp [Pool.next, Pool.notifyOne, hst, hw]⟩

/-- A pool whose threads cannot go on is settled. -/
theorem Runs.settled (h : s.Runs) (hn : 0 < n) (hq : ∀ a, a.quiet = true → s.next a = none) :
    s.Settled := by
  have hl := h.locked
  have hstuck : ∀ thread, s.step thread = none := fun thread => hq (.step thread) rfl
  have hmutex : s.queue_mutex = none := by
    cases hm : s.queue_mutex with
    | none => rfl
    | some thread =>
      have hholds := (hl.holds thread).2 hm
      rw [(step_eq_none (hstuck thread) (hl.front thread)).1] at hholds
      cases hholds
  have hstage : ∀ thread, s.stage thread = .asleep ∨ s.stage thread = .exited ∨
      s.stage thread = .idle := by
    intro thread
    rcases (step_eq_none (hstuck thread) (hl.front thread)).2 hmutex with
      hst | hst | hst | ⟨task, hst⟩
    · exact .inl hst
    · exact .inr (.inl hst)
    · exact .inr (.inr hst)
    · cases thread with
      | worker w =>
        have hw := h.worker w
        rw [hst] at hw
        cases hw
      | client i =>
        obtain ⟨w, hne⟩ := notify_progress hst
        exact absurd (hq _ rfl) hne
  have hworkers : ∀ w, s.stage (.worker w) = .asleep ∨ s.stage (.worker w) = .exited := by
    intro w
    rcases hstage (.worker w) with hst | hst | hst
    · exact .inl hst
    · exact .inr hst
    · have hw := h.worker w
      rw [hst] at hw
      cases hw
  have hidle : ∀ thread, (s.stage thread).coming = false ∧ (s.stage thread).running = none := by
    intro thread
    rcases hstage thread with hst | hst | hst <;> rw [hst] <;> exact ⟨rfl, rfl⟩
  have htasks : s.tasks = [] := by
    rcases hworkers ⟨0, hn⟩ with hst | hst
    · obtain ⟨threads, hc, hle⟩ := h.conserving.asleep _ hst
      have hnone : threads = ∅ := by
        apply Finset.eq_empty_of_forall_notMem
        intro thread hmem
        have hcoming := hc thread hmem
        rw [(hidle thread).1] at hcoming
        cases hcoming
      rw [hnone] at hle
      exact List.length_eq_zero_iff.1 (Nat.le_zero.1 hle)
    · exact (hl.ended _ (by rw [hst]; rfl)).2
  refine ⟨hmutex, htasks, hworkers, ?_, ?_⟩
  · intro i
    have hi := h.roles i
    rcases hstage (.client i) with hst | hst | hst
    · rw [hst] at hi
      cases hi
    · rw [hst] at hi
      cases hi
    · exact hst
  · intro task ht
    obtain ⟨place, hp⟩ := h.place_exists ht
    cases place with
    | queued => simp [At, htasks] at hp
    | running =>
      obtain ⟨w, hr⟩ := hp
      rw [(hidle _).2] at hr
      cases hr
    | finished => exact .inl hp
    | flushed => exact .inr hp

end Pool

def Thread.equiv : Thread n κ ≃ Fin n ⊕ κ where
  toFun
    | .worker w => .inl w
    | .client i => .inr i
  invFun
    | .inl w => .worker w
    | .inr i => .client i
  left_inv thread := by cases thread <;> rfl
  right_inv thread := by cases thread <;> rfl

instance [Fintype κ] : Fintype (Thread n κ) := .ofEquiv (Fin n ⊕ κ) Thread.equiv.symm

namespace Pool
variable [Fintype κ] [DecidableEq κ] {s s' : Pool n κ} {thread : Thread n κ} {x : Stage}

/-- How many more steps the threads of the pool make at most, if nobody calls it. -/
def work (s : Pool n κ) : Nat := 6 * s.tasks.length + ∑ thread, (s.stage thread).work

theorem sum_work_update (stage : Thread n κ → Stage) (thread : Thread n κ) (x : Stage) :
    ∑ t, (Function.update stage thread x t).work + (stage thread).work =
      ∑ t, (stage t).work + x.work := by
  rw [← Finset.add_sum_erase _ _ (Finset.mem_univ thread),
    ← Finset.add_sum_erase _ (fun t => (stage t).work) (Finset.mem_univ thread)]
  have hrest : ∑ t ∈ Finset.univ.erase thread, (Function.update stage thread x t).work =
      ∑ t ∈ Finset.univ.erase thread, (stage t).work := by
    apply Finset.sum_congr rfl
    intro t ht
    rw [Function.update_of_ne (Finset.ne_of_mem_erase ht)]
  rw [hrest, Function.update_self]
  omega

theorem work_next (ha : a.quiet = true) (hs : s.next a = some s') : s'.work < s.work := by
  cases a with
  | step thread =>
    obtain ⟨x, hp⟩ := step_progress hs
    have hsum := sum_work_update s.stage thread x
    have hlt := hp.work
    rw [work, work, hp.stage]
    omega
  | notifyOne i w =>
    have hnotify : ∀ task, (Stage.notify task).work = 5 := fun _ => rfl
    have hrelock : Stage.relock.work = 4 := rfl
    obtain ⟨task, hst, ht, ⟨w, hw, hstage⟩ | ⟨_, hstage⟩⟩ := notifyOne_cases hs
    · have hwoken := sum_work_update s.stage (.worker w) .relock
      have hsum := sum_work_update (Function.update s.stage (.worker w) .relock) (.client i) .idle
      rw [Function.update_of_ne (by simp), hst, hnotify] at hsum
      rw [work, work, ht, hstage]
      change _ + 5 = _ + 0 at hsum
      omega
    · have hsum := sum_work_update s.stage (.client i) .idle
      rw [hst, hnotify] at hsum
      rw [work, work, ht, hstage]
      change _ + 5 = _ + 0 at hsum
      omega
  | _ => cases ha

/-- Left to itself a pool with a worker always gets to rest, after a number of steps that is known
beforehand and in whatever order they are taken; at rest every call has returned and every task that
was pushed has been run or flushed. -/
theorem pool_settles (hn : 0 < n) (h : s.Runs) :
    (∀ as s', (∀ a ∈ as, a.quiet = true) → exec next s as = some s' →
      as.length ≤ s.work ∧ ((∀ a, a.quiet = true → s'.next a = none) → s'.Settled)) ∧
    ∃ as s', (∀ a ∈ as, a.quiet = true) ∧ exec next s as = some s' ∧ s'.Settled := by
  have hlt : ∀ (s : Pool n κ) (a : Action n κ) (s' : Pool n κ), a.quiet = true →
      s.next a = some s' → s'.work < s.work := fun _ _ _ ha hs => work_next ha hs
  constructor
  · intro as s' ha he
    have hlength := length_add_le_of_exec hlt ha he
    exact ⟨by omega, fun hq => Runs.settled (Reachable.exec h he) hn hq⟩
  · obtain ⟨as, s', ha, he, hq⟩ := exists_exec_final hlt s
    exact ⟨as, s', ha, he, Runs.settled (Reachable.exec h he) hn hq⟩

def pushAsleep : List (Action 1 Unit) :=
  List.replicate 3 (Action.step solo) ++ [Action.enqueue ()] ++
    List.replicate 4 (Action.step (.client ()))

theorem work_conserving_pushAsleep : ∃ s : Pool 1 Unit, exec next start pushAsleep = some s ∧
    s.tasks = [0] ∧ ∃ i task, s.stage (.client i) = .pushed task ∨
      s.stage (.client i) = .notify task := by
  obtain ⟨s, hs, ht, hw⟩ : ∃ s : Pool 1 Unit, exec next start pushAsleep = some s ∧
      s.tasks = [0] ∧ ∀ w, s.stage (.worker w) = .asleep := ⟨_, rfl, rfl, by decide⟩
  exact ⟨s, hs, ht, (work_conserving (Reachable.exec (.start rfl) hs)).2 Nat.one_pos hw
    (by simp [ht])⟩

theorem pool_settles_pushAsleep : ∃ s : Pool 1 Unit, exec next start pushAsleep = some s ∧
    s.work = 11 ∧ ∃ as s', (∀ a ∈ as, a.quiet = true) ∧ exec next s as = some s' ∧
      s'.Settled := by
  obtain ⟨s, hs, hwork⟩ : ∃ s : Pool 1 Unit, exec next start pushAsleep = some s ∧ s.work = 11 :=
    ⟨_, rfl, by decide⟩
  exact ⟨s, hs, hwork, (pool_settles Nat.one_pos (Reachable.exec (.start rfl) hs)).2⟩

end Pool
end OnnxruntimeServer.BuiltinThreadPool
