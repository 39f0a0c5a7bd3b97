import OnnxruntimeServer.Lib.Transition

namespace OnnxruntimeServer.BuiltinThreadPool
set_option autoImplicit true
open Transition

/-- The threads around a pool: its workers, and any number of clients. -/
inductive Thread (n : Nat) (κ : Type) where
  | worker (w : Fin n)
  | client (i : κ)
  deriving DecidableEq

/-- What a thread does next: in the loop of a worker, from `lock` to `exited`, or in the calls of a
client. -/
inductive Stage where
  | lock
  | wait
  | sleep
  | asleep
  | relock
  | test
  | take
  | unlock (task : Nat)
  | run (task : Nat)
  | leave
  | exited
  | idle
  | enqueue (task : Nat)
  | check (task : Nat)
  | push (task : Nat)
  | pushed (task : Nat)
  | notify (task : Nat)
  | throw
  | flush
  | clear
  | cleared
  deriving DecidableEq

inductive Destructor where
  | idle
  | stopped
  | notified
  | joined
  deriving DecidableEq

/-- What has become of the tasks, which are numbered as `enqueue` is called for them. -/
structure Ledger where
  calls : Nat
  pushed : List Nat
  futures : List Nat
  taken : List Nat
  finished : List Nat
  flushed : List Nat

structure Pool (n : Nat) (κ : Type) where
  queue_mutex : Option (Thread n κ)
  tasks : List Nat
  stop : Bool
  stage : Thread n κ → Stage
  destructor : Destructor
  ledger : Ledger

inductive Action (n : Nat) (κ : Type) where
  | enqueue (i : κ)
  | flush (i : κ)
  | step (thread : Thread n κ)
  | notifyOne (i : κ) (w : Option (Fin n))
  | spuriousWake (w : Fin n)
  | stop
  | notifyAll
  | join

/-- A thread that sleeps goes on to lock the mutex again when it is woken. -/
def Stage.wake : Stage → Stage
  | .asleep => .relock
  | stage => stage

namespace Pool
variable [DecidableEq κ]

def start : Pool n κ where
  queue_mutex := none
  tasks := []
  stop := false
  stage
    | .worker _ => .lock
    | .client _ => .idle
  destructor := .idle
  ledger := ⟨0, [], [], [], [], []⟩

def move (s : Pool n κ) (thread : Thread n κ) (stage : Stage) : Pool n κ :=
  { s with stage := Function.update s.stage thread stage }

def acquire (s : Pool n κ) (thread : Thread n κ) (stage : Stage) : Option (Pool n κ) :=
  if s.queue_mutex = none then some { s.move thread stage with queue_mutex := some thread }
  else none

def release (s : Pool n κ) (thread : Thread n κ) (stage : Stage) : Pool n κ :=
  { s.move thread stage with queue_mutex := none }

@[simp] theorem move_queue_mutex (s : Pool n κ) (thread : Thread n κ) (stage : Stage) :
    (s.move thread stage).queue_mutex = s.queue_mutex := rfl

@[simp] theorem move_stage (s : Pool n κ) (thread : Thread n κ) (stage : Stage) :
    (s.move thread stage).stage = Function.update s.stage thread stage := rfl

@[simp] theorem release_queue_mutex (s : Pool n κ) (thread : Thread n κ) (stage : Stage) :
    (s.release thread stage).queue_mutex = none := rfl

/-- The next step of a thread, unless it has to wait for the mutex or to be woken. -/
def step (s : Pool n κ) (thread : Thread n κ) : Option (Pool n κ) :=
  match s.stage thread with
  | .lock => s.acquire thread .wait
  | .wait => some (s.move thread (if s.stop || !s.tasks.isEmpty then .test else .sleep))
  | .sleep => some (s.release thread .asleep)
  | .relock => s.acquire thread .wait
  | .test => some (s.move thread (if s.stop && s.tasks.isEmpty then .leave else .take))
  | .take =>
    match s.tasks with
    | task :: tasks => some
        { s.move thread (.unlock task) with
          tasks := tasks, ledger := { s.ledger with taken := s.ledger.taken ++ [task] } }
    | [] => none
  | .unlock task => some (s.release thread (.run task))
  | .run task => some
      { s.move thread .lock with
        ledger := { s.ledger with finished := s.ledger.finished ++ [task] } }
  | .leave => some (s.release thread .exited)
  | .enqueue task => s.acquire thread (.check task)
  | .check task => some (s.move thread (if s.stop then .throw else .push task))
  | .push task => some
      { s.move thread (.pushed task) with
        tasks := s.tasks ++ [task],
        ledger := { s.ledger with pushed := s.ledger.pushed ++ [task] } }
  | .pushed task => some (s.release thread (.notify task))
  | .throw => some (s.release thread .idle)
  | .flush => s.acquire thread .clear
  | .clear => some
      { s.move thread .cleared with
        tasks := [], ledger := { s.ledger with flushed := s.ledger.flushed ++ s.tasks } }
  | .cleared => some (s.release thread .idle)
  | .asleep | .exited | .idle | .notify _ => none

/-- `notify_one`, which wakes one of the threads that sleep, and the return of the future. -/
def notifyOne (s : Pool n κ) (i : κ) (w : Option (Fin n)) : Option (Pool n κ) :=
  match s.stage (.client i), w with
  | .notify task, some w =>
    if s.stage (.worker w) = .asleep then some
      { (s.move (.worker w) .relock).move (.client i) .idle with
        ledger := { s.ledger with futures := s.ledger.futures ++ [task] } }
    else none
  | .notify task, none =>
    if ∀ w, s.stage (.worker w) ≠ .asleep then some
      { s.move (.client i) .idle with
        ledger := { s.ledger with futures := s.ledger.futures ++ [task] } }
    else none
  | _, _ => none

def next (s : Pool n κ) : Action n κ → Option (Pool n κ)
  | .enqueue i =>
    if s.stage (.client i) = .idle then some
      { s.move (.client i) (.enqueue s.ledger.calls) with
        ledger := { s.ledger with calls := s.ledger.calls + 1 } }
    else none
  | .flush i => if s.stage (.client i) = .idle then some (s.move (.client i) .flush) else none
  | .step thread => s.step thread
  | .notifyOne i w => s.notifyOne i w
  | .spuriousWake w =>
    if s.stage (.worker w) = .asleep then some (s.move (.worker w) .relock) else none
  | .stop =>
    if s.destructor = .idle then some { s with stop := true, destructor := .stopped } else none
  | .notifyAll =>
    if s.destructor = .stopped then some
      { s with stage := fun thread => (s.stage thread).wake, destructor := .notified }
    else none
  | .join =>
    if s.destructor = .notified ∧ ∀ w, s.stage (.worker w) = .exited then some
      { s with destructor := .joined }
    else none

/-- The states that a pool can get into, in any order of the steps of its threads. -/
def Runs : Pool n κ → Prop := Reachable (· = start) fun s s' => ∃ a, s.next a = some s'

end Pool

namespace Stage

def holds : Stage → Bool
  | .wait | .sleep | .test | .take | .unlock _ | .leave => true
  | .check _ | .push _ | .pushed _ | .throw | .clear | .cleared => true
  | _ => false

def left : Stage → Bool
  | .leave | .exited => true
  | _ => false

end Stage

/-- What the threads know of `stop` and of the queue at the places where it matters. -/
structure Locked (queue_mutex : Option (Thread n κ)) (stop : Bool) (tasks : List Nat)
    (stage : Thread n κ → Stage) : Prop where
  holds : ∀ thread, (stage thread).holds = true ↔ queue_mutex = some thread
  ready : ∀ thread, stage thread = .test → stop = true ∨ tasks ≠ []
  front : ∀ thread, stage thread = .take → tasks ≠ []
  ended : ∀ thread, (stage thread).left = true → stop = true ∧ tasks = []
  closed : ∀ thread, (stage thread).left = true → ∀ other task, stage other ≠ .push task

section
variable {queue_mutex : Option (Thread n κ)} {tasks : List Nat} {stop : Bool}
  {stage : Thread n κ → Stage} {thread other : Thread n κ} {x : Stage}

theorem Locked.alone (h : Locked queue_mutex stop tasks stage) (ht : (stage thread).holds = true)
    (ho : other ≠ thread) : (stage other).holds = false := by
  by_contra hh
  have hm := (h.holds thread).1 ht
  rw [(h.holds other).1 (by simpa using hh)] at hm
  exact ho (Option.some.inj hm)

theorem Locked.stopped (h : Locked queue_mutex stop tasks stage) :
    Locked queue_mutex true tasks stage :=
  ⟨h.holds, fun _ _ => .inl rfl, h.front, fun t ht => ⟨rfl, (h.ended t ht).2⟩, h.closed⟩

theorem Locked.woken (h : Locked queue_mutex stop tasks stage) {stage' : Thread n κ → Stage}
    (hw : ∀ thread, stage' thread = stage thread ∨
      stage thread = .asleep ∧ stage' thread = .relock) :
    Locked queue_mutex stop tasks stage' where
  holds thread := by
    rw [← h.holds]
    rcases hw thread with hw | ⟨hs, hs'⟩
    · rw [hw]
    · simp [hs, hs', Stage.holds]
  ready thread ht := by
    rcases hw thread with hw | ⟨_, hs'⟩
    · exact h.ready thread (hw ▸ ht)
    · simp [hs'] at ht
  front thread ht := by
    rcases hw thread with hw | ⟨_, hs'⟩
    · exact h.front thread (hw ▸ ht)
    · simp [hs'] at ht
  ended thread ht := by
    rcases hw thread with hw | ⟨_, hs'⟩
    · exact h.ended thread (hw ▸ ht)
    · simp [hs', Stage.left] at ht
  closed thread ht other task hp := by
    rcases hw other with hw' | ⟨_, hs'⟩
    · rcases hw thread with hw | ⟨_, hs⟩
      · exact h.closed thread (hw ▸ ht) other task (hw' ▸ hp)
      · simp [hs, Stage.left] at ht
    · simp [hs'] at hp

variable [DecidableEq κ]

theorem update_eq (h : Function.update stage thread x other = y) :
    other = thread ∧ x = y ∨ other ≠ thread ∧ stage other = y := by
  by_cases ho : other = thread
  · rw [ho, Function.update_self] at h
    exact .inl ⟨ho, h⟩
  · rw [Function.update_of_ne ho] at h
    exact .inr ⟨ho, h⟩

theorem update_of {p : Stage → Prop} (h : p (Function.update stage thread x other)) :
    other = thread ∧ p x ∨ other ≠ thread ∧ p (stage other) := by
  rcases update_eq (y := Function.update stage thread x other) rfl with ⟨ho, hx⟩ | ⟨ho, hx⟩
  · exact .inl ⟨ho, hx ▸ h⟩
  · exact .inr ⟨ho, hx ▸ h⟩

theorem Locked.move (h : Locked queue_mutex stop tasks stage) {queue_mutex' : Option (Thread n κ)}
    (hm : x.holds = true ↔ queue_mutex' = some thread)
    (ho : ∀ other ≠ thread, queue_mutex = some other ↔ queue_mutex' = some other)
    (hr : x = .test → stop = true ∨ tasks ≠ []) (hf : x = .take → tasks ≠ [])
    (he : x.left = true → stop = true ∧ tasks = [] ∧
      ((stage thread).left = true ∨ (stage thread).holds = true))
    (hp : ∀ task, x = .push task → stop = false) :
    Locked queue_mutex' stop tasks (Function.update stage thread x) where
  holds other := by
    by_cases hot : other = thread
    · rw [hot, Function.update_self, hm]
    · rw [Function.update_of_ne hot, h.holds, ho other hot]
  ready other hx := by
    rcases update_eq hx with ⟨_, hx⟩ | ⟨_, hx⟩
    · exact hr hx
    · exact h.ready other hx
  front other hx := by
    rcases update_eq hx with ⟨_, hx⟩ | ⟨_, hx⟩
    · exact hf hx
    · exact h.front other hx
  ended other hx := by
    rcases update_of (p := fun s => s.left = true) hx with ⟨_, hx⟩ | ⟨_, hx⟩
    · exact ⟨(he hx).1, (he hx).2.1⟩
    · exact h.ended other hx
  closed other hx third task hpush := by
    rcases update_eq hpush with ⟨rfl, hx'⟩ | ⟨ht, hpush⟩
    · have hs := hp task hx'
      rcases update_of (p := fun s => s.left = true) hx with ⟨_, hx⟩ | ⟨_, hx⟩
      · rw [hx'] at hx
        cases hx
      · rw [(h.ended other hx).1] at hs
        cases hs
    · rcases update_of (p := fun s => s.left = true) hx with ⟨_, hx⟩ | ⟨_, hx⟩
      · rcases (he hx).2.2 with hl | hh
        · exact h.closed _ hl third task hpush
        · have hn := h.alone hh ht
          rw [hpush] at hn
          cases hn
      · exact h.closed other hx third task hpush

/-- The thread with the mutex changes the queue, and no worker has ended unless it is empty. -/
theorem Locked.change (h : Locked queue_mutex stop tasks stage) {tasks' : List Nat}
    (hs : (stage thread).holds = true) (hx : x.holds = true) (hr : x ≠ .test) (hf : x ≠ .take)
    (hl : x ≠ .leave) (hp : ∀ task, x ≠ .push task)
    (he : ∀ other, (stage other).left = true → tasks' = []) :
    Locked queue_mutex stop tasks' (Function.update stage thread x) where
  holds other := by
    by_cases hot : other = thread
    · rw [hot, Function.update_self, hx, ← h.holds, hs]
    · rw [Function.update_of_ne hot, h.holds]
  ready other ht := by
    rcases update_eq ht with ⟨_, ht⟩ | ⟨ho, ht⟩
    · exact absurd ht hr
    · have hn := h.alone hs ho
      rw [ht] at hn
      cases hn
  front other ht := by
    rcases update_eq ht with ⟨_, ht⟩ | ⟨ho, ht⟩
    · exact absurd ht hf
    · have hn := h.alone hs ho
      rw [ht] at hn
      cases hn
  ended other ht := by
    rcases update_of (p := fun s => s.left = true) ht with ⟨_, ht⟩ | ⟨_, ht⟩
    · cases x <;> simp_all [Stage.left, Stage.holds]
    · exact ⟨(h.ended other ht).1, he other ht⟩
  closed other ht third task hpush := by
    rcases update_eq hpush with ⟨_, hpush⟩ | ⟨ho, hpush⟩
    · exact hp task hpush
    · have hn := h.alone hs ho
      rw [hpush] at hn
      cases hn

end

namespace Pool
variable [DecidableEq κ] {s s' : Pool n κ} {thread : Thread n κ} {x : Stage}

def Locked (s : Pool n κ) : Prop :=
  BuiltinThreadPool.Locked s.queue_mutex s.stop s.tasks s.stage

theorem Locked.acquire (h : s.Locked) (ha : s.acquire thread x = some s') (hx : x.holds = true)
    (hr : x ≠ .test) (hf : x ≠ .take) (hl : x ≠ .leave) (hp : ∀ task, x ≠ .push task) :
    s'.Locked := by
  rw [Pool.acquire] at ha
  split_ifs at ha with hm
  obtain rfl := Option.some.inj ha
  refine h.move (by simp [hx]) ?_ (absurd · hr) (absurd · hf) ?_ fun task ht => absurd ht (hp task)
  · intro other ho
    simp [hm, Ne.symm ho]
  · intro hleft
    cases x <;> simp_all [Stage.left, Stage.holds]

theorem Locked.release (h : s.Locked) (hs : (s.stage thread).holds = true) (hx : x.holds = false)
    (he : x.left = true → (s.stage thread).left = true) : (s.release thread x).Locked := by
  have hm := (h.holds thread).1 hs
  refine h.move (by simp [hx]) ?_ ?_ ?_ ?_ ?_
  · intro other ho
    simp [hm, Ne.symm ho]
  · rintro rfl
    cases hx
  · rintro rfl
    cases hx
  · intro hl
    have hd := h.ended thread (he hl)
    exact ⟨hd.1, hd.2, .inl (he hl)⟩
  · rintro task rfl
    cases hx

theorem Locked.keep (h : s.Locked) (hs : (s.stage thread).holds = true) (hx : x.holds = true)
    (hr : x = .test → s.stop = true ∨ s.tasks ≠ []) (hf : x = .take → s.tasks ≠ [])
    (he : x = .leave → s.stop = true ∧ s.tasks = []) (hp : ∀ task, x = .push task → s.stop = false) :
    (s.move thread x).Locked := by
  have hm := (h.holds thread).1 hs
  refine BuiltinThreadPool.Locked.move h (by simp [hx, hm]) (fun _ _ => Iff.rfl) hr hf ?_ hp
  intro hl
  have hleave : x = .leave := by cases x <;> simp_all [Stage.left, Stage.holds]
  exact ⟨(he hleave).1, (he hleave).2, .inr hs⟩

theorem Locked.outside (h : s.Locked) (hs : (s.stage thread).holds = false) (hx : x.holds = false)
    (hl : x.left = false) : (s.move thread x).Locked := by
  have hm : s.queue_mutex ≠ some thread := by
    rw [ne_eq, ← h.holds, hs]
    exact Bool.false_ne_true
  refine BuiltinThreadPool.Locked.move h (by simp [hx, hm]) (fun _ _ => Iff.rfl) ?_ ?_ ?_ ?_
  · rintro rfl
    cases hx
  · rintro rfl
    cases hx
  · intro hl'
    rw [hl] at hl'
    cases hl'
  · rintro task rfl
    cases hx

theorem Locked.step (h : s.Locked) (hs : s.step thread = some s') : s'.Locked := by
  rw [Pool.step] at hs
  cases hst : s.stage thread with
  | lock =>
    simp only [hst] at hs
    exact h.acquire hs rfl (by simp) (by simp) (by simp) (by simp)
  | wait =>
    simp only [hst, Option.some.injEq] at hs
    subst hs
    split_ifs with hp
    · exact h.keep (by simp [hst, Stage.holds]) rfl (fun _ => by simpa using hp) (by simp) (by simp)
        (by simp)
    · exact h.keep (by simp [hst, Stage.holds]) rfl (by simp) (by simp) (by simp) (by simp)
  | sleep =>
    simp only [hst, Option.some.injEq] at hs
    subst hs
    exact h.release (by simp [hst, Stage.holds]) rfl (by simp [Stage.left])
  | relock =>
    simp only [hst] at hs
    exact h.acquire hs rfl (by simp) (by simp) (by simp) (by simp)
  | test =>
    simp only [hst, Option.some.injEq] at hs
    subst hs
    split_ifs with hp
    · exact h.keep (by simp [hst, Stage.holds]) rfl (by simp) (by simp) (fun _ => by simpa using hp)
        (by simp)
    · refine h.keep (by simp [hst, Stage.holds]) rfl (by simp) (fun _ => ?_) (by simp) (by simp)
      rcases h.ready thread hst with hr | hr
      · simpa [hr] using hp
      · exact hr
  | take =>
    cases ht : s.tasks with
    | nil => simp [hst, ht] at hs
    | cons task tasks =>
      simp only [hst, ht, Option.some.injEq] at hs
      subst hs
      refine h.change (by simp [hst, Stage.holds]) rfl (by simp) (by simp) (by simp) (by simp) ?_
      intro other hl
      have he := (h.ended other hl).2
      rw [ht] at he
      cases he
  | unlock task =>
    simp only [hst, Option.some.injEq] at hs
    subst hs
    exact h.release (by simp [hst, Stage.holds]) rfl (by simp [Stage.left])
  | run task =>
    simp only [hst, Option.some.injEq] at hs
    subst hs
    exact h.outside (by simp [hst, Stage.holds]) rfl rfl
  | leave =>
    simp only [hst, Option.some.injEq] at hs
    subst hs
    exact h.release (by simp [hst, Stage.holds]) rfl (by simp [hst, Stage.left])
  | enqueue task =>
    simp only [hst] at hs
    exact h.acquire hs rfl (by simp) (by simp) (by simp) (by simp)
  | check task =>
    simp only [hst, Option.some.injEq] at hs
    subst hs
    split_ifs with hp
    · exact h.keep (by simp [hst, Stage.holds]) rfl (by simp) (by simp) (by simp) (by simp)
    · exact h.keep (by simp [hst, Stage.holds]) rfl (by simp) (by simp) (by simp)
        (fun _ _ => by simpa using hp)
  | push task =>
    simp only [hst, Option.some.injEq] at hs
    subst hs
    refine h.change (by simp [hst, Stage.holds]) rfl (by simp) (by simp) (by simp) (by simp) ?_
    exact fun other hl => absurd hst (h.closed other hl thread task)
  | pushed task =>
    simp only [hst, Option.some.injEq] at hs
    subst hs
    exact h.release (by simp [hst, Stage.holds]) rfl (by simp [Stage.left])
  | throw =>
    simp only [hst, Option.some.injEq] at hs
    subst hs
    exact h.release (by simp [hst, Stage.holds]) rfl (by simp [Stage.left])
  | flush =>
    simp only [hst] at hs
    exact h.acquire hs rfl (by simp) (by simp) (by simp) (by simp)
  | clear =>
    simp only [hst, Option.some.injEq] at hs
    subst hs
    exact h.change (by simp [hst, Stage.holds]) rfl (by simp) (by simp) (by simp) (by simp)
      fun _ _ => rfl
  | cleared =>
    simp only [hst, Option.some.injEq] at hs
    subst hs
    exact h.release (by simp [hst, Stage.holds]) rfl (by simp [Stage.left])
  | _ => simp [hst] at hs

theorem Locked.notifyOne (h : s.Locked) (hs : s.notifyOne i w = some s') : s'.Locked := by
  rw [Pool.notifyOne.eq_def] at hs
  split at hs
  case h_1 task w hst =>
    split_ifs at hs with hw
    obtain rfl := Option.some.inj hs
    have hwoken : (s.move (.worker w) .relock).Locked :=
      h.outside (by simp [hw, Stage.holds]) rfl rfl
    exact hwoken.outside (by simp [Pool.move, hst, Stage.holds]) rfl rfl
  case h_2 task hst =>
    split_ifs at hs with hw
    obtain rfl := Option.some.inj hs
    exact h.outside (by simp [hst, Stage.holds]) rfl rfl
  case h_3 => cases hs

theorem Locked.next (h : s.Locked) (hs : s.next a = some s') : s'.Locked := by
  cases a with
  | enqueue i =>
    rw [Pool.next] at hs
    split_ifs at hs with hi
    obtain rfl := Option.some.inj hs
    exact h.outside (by simp [hi, Stage.holds]) rfl rfl
  | flush i =>
    rw [Pool.next] at hs
    split_ifs at hs with hi
    obtain rfl := Option.some.inj hs
    exact h.outside (by simp [hi, Stage.holds]) rfl rfl
  | step thread => exact h.step hs
  | notifyOne i w => exact h.notifyOne hs
  | spuriousWake w =>
    rw [Pool.next] at hs
    split_ifs at hs with hw
    obtain rfl := Option.some.inj hs
    exact h.outside (by simp [hw, Stage.holds]) rfl rfl
  | stop =>
    rw [Pool.next] at hs
    split_ifs at hs
    obtain rfl := Option.some.inj hs
    exact h.stopped
  | notifyAll =>
    rw [Pool.next] at hs
    split_ifs at hs
    obtain rfl := Option.some.inj hs
    apply BuiltinThreadPool.Locked.woken h
    intro thread
    cases hst : s.stage thread <;> simp [hst, Stage.wake]
  | join =>
    rw [Pool.next] at hs
    split_ifs at hs
    obtain rfl := Option.some.inj hs
    exact h

theorem Runs.locked (h : s.Runs) : s.Locked := by
  refine Reachable.invariant h ?_ fun s s' _ hl ⟨a, ha⟩ => hl.next ha
  rintro _ rfl
  refine ⟨?_, ?_, ?_, ?_, ?_⟩ <;> rintro (w | i) <;> simp [start, Stage.holds, Stage.left]

end Pool

/-- The task that a thread is about to push, that it has pushed, or that it has taken. -/
def Stage.pending : Stage → Option Nat
  | .enqueue task | .check task | .push task => some task
  | _ => none

def Stage.accepted : Stage → Option Nat
  | .pushed task | .notify task => some task
  | _ => none

def Stage.running : Stage → Option Nat
  | .unlock task | .run task => some task
  | _ => none

/-- Where the tasks are that have been pushed. -/
structure Accounted (tasks : List Nat) (l : Ledger) (stage : Thread n κ → Stage) : Prop where
  fresh : ∀ thread task, (stage thread).pending = some task → task < l.calls ∧ task ∉ l.pushed
  distinct : ∀ thread other task, (stage thread).pending = some task →
    (stage other).pending = some task → thread = other
  numbered : ∀ task ∈ l.pushed, task < l.calls
  nodup : l.pushed.Nodup
  accepted : ∀ thread task, (stage thread).accepted = some task → task ∈ l.pushed
  futures : ∀ task ∈ l.futures, task ∈ l.pushed
  split : l.pushed.Perm (l.taken ++ tasks ++ l.flushed)
  order : (l.taken ++ tasks).Sublist l.pushed
  running : ∀ thread task, (stage thread).running = some task →
    task ∈ l.taken ∧ task ∉ l.finished
  single : ∀ thread other task, (stage thread).running = some task →
    (stage other).running = some task → thread = other
  done : ∀ task ∈ l.taken, task ∈ l.finished ∨ ∃ thread, (stage thread).running = some task
  finished : ∀ task ∈ l.finished, task ∈ l.taken
  once : l.finished.Nodup

section
variable {tasks : List Nat} {l : Ledger} {stage stage' : Thread n κ → Stage}
  {thread other : Thread n κ} {x : Stage} {task : Nat}

theorem Accounted.mono (h : Accounted tasks l stage)
    (hp : ∀ thread task, (stage' thread).pending = some task →
      (stage thread).pending = some task)
    (ha : ∀ thread task, (stage' thread).accepted = some task →
      (stage thread).accepted = some task)
    (hr : ∀ thread, (stage' thread).running = (stage thread).running) :
    Accounted tasks l stage' where
  fresh thread task ht := h.fresh thread task (hp thread task ht)
  distinct thread other task ht ho :=
    h.distinct thread other task (hp thread task ht) (hp other task ho)
  numbered := h.numbered
  nodup := h.nodup
  accepted thread task ht := h.accepted thread task (ha thread task ht)
  futures := h.futures
  split := h.split
  order := h.order
  running thread task ht := h.running thread task (hr thread ▸ ht)
  single thread other task ht ho := h.single thread other task (hr thread ▸ ht) (hr other ▸ ho)
  done task ht := by
    simpa only [hr] using h.done task ht
  finished := h.finished
  once := h.once

theorem Accounted.future (h : Accounted tasks l stage) (ht : task ∈ l.pushed) :
    Accounted tasks { l with futures := l.futures ++ [task] } stage :=
  { h with
    futures := by
      intro other ho
      rcases List.mem_append.1 ho with ho | ho
      · exact h.futures other ho
      · rw [List.mem_singleton.1 ho]
        exact ht }

theorem Accounted.clear (h : Accounted tasks l stage) :
    Accounted [] { l with flushed := l.flushed ++ tasks } stage :=
  { h with
    split := by
      apply h.split.trans
      rw [List.append_nil, List.append_assoc]
      exact List.Perm.append_left _ List.perm_append_comm
    order := by
      rw [List.append_nil]
      exact (List.sublist_append_left _ _).trans h.order }

variable [DecidableEq κ]

/-- A task that a thread comes to have is one that no other thread has. -/
theorem unique_update {f : Stage → Option Nat}
    (h : ∀ a b task, f (stage a) = some task → f (stage b) = some task → a = b)
    (hx : ∀ task, f x = some task → ∀ other, f (stage other) ≠ some task)
    (a b : Thread n κ) (task : Nat) (ha : f (Function.update stage thread x a) = some task)
    (hb : f (Function.update stage thread x b) = some task) : a = b := by
  rcases update_of (p := fun s => f s = some task) ha with ⟨hae, ha⟩ | ⟨_, ha⟩
  · rcases update_of (p := fun s => f s = some task) hb with ⟨hbe, hb⟩ | ⟨_, hb⟩
    · exact hae.trans hbe.symm
    · exact absurd hb (hx task ha b)
  · rcases update_of (p := fun s => f s = some task) hb with ⟨_, hb⟩ | ⟨_, hb⟩
    · exact absurd ha (hx task hb a)
    · exact h a b task ha hb

theorem of_update {f : Stage → Option Nat} (hx : f x = none)
    (h : f (Function.update stage thread x other) = some task) :
    other ≠ thread ∧ f (stage other) = some task := by
  rcases update_of (p := fun s => f s = some task) h with ⟨_, h⟩ | h
  · rw [hx] at h
    cases h
  · exact h

theorem kept_update {f : Stage → Option Nat} (hx : f x = none ∨ f x = f (stage thread))
    (h : f (Function.update stage thread x other) = some task) : f (stage other) = some task := by
  rcases update_of (p := fun s => f s = some task) h with ⟨ho, h⟩ | ⟨_, h⟩
  · rcases hx with hx | hx
    · rw [hx] at h
      cases h
    · rw [ho, ← hx, h]
  · exact h

theorem running_update (hr : (stage other).running = some task)
    (hs : (stage thread).running ≠ some task) :
    (Function.update stage thread x other).running = some task := by
  rwa [Function.update_of_ne]
  rintro rfl
  exact hs hr

theorem Accounted.call (h : Accounted tasks l stage) (hs : (stage thread).running = none) :
    Accounted tasks { l with calls := l.calls + 1 }
      (Function.update stage thread (.enqueue l.calls)) := by
  refine { h with
    fresh := ?_, distinct := unique_update h.distinct ?_, numbered := ?_, accepted := ?_,
    running := ?_, single := unique_update h.single (by simp [Stage.running]), done := ?_ }
  · intro other t ht
    rcases update_of (p := fun s => s.pending = some t) ht with ⟨_, ht⟩ | ⟨_, ht⟩
    · obtain rfl := Option.some.inj ht
      exact ⟨Nat.lt_succ_self _, fun hm => (h.numbered _ hm).false⟩
    · exact ⟨Nat.lt_succ_of_lt (h.fresh other t ht).1, (h.fresh other t ht).2⟩
  · intro t ht other ho
    obtain rfl := Option.some.inj ht
    exact lt_irrefl _ (h.fresh other _ ho).1
  · exact fun t ht => Nat.lt_succ_of_lt (h.numbered t ht)
  · exact fun other t ht => h.accepted other t (of_update rfl ht).2
  · exact fun other t ht => h.running other t (of_update rfl ht).2
  · intro t ht
    rcases h.done t ht with hf | ⟨other, hr⟩
    · exact .inl hf
    · exact .inr ⟨other, running_update hr (by simp [hs])⟩

theorem Accounted.push (h : Accounted tasks l stage) (hs : stage thread = .push task) :
    Accounted (tasks ++ [task]) { l with pushed := l.pushed ++ [task] }
      (Function.update stage thread (.pushed task)) := by
  have hpend : (stage thread).pending = some task := by rw [hs]; rfl
  refine { h with
    fresh := ?_, distinct := unique_update h.distinct (by simp [Stage.pending]), numbered := ?_,
    nodup := ?_, accepted := ?_, futures := ?_, split := ?_, order := ?_, running := ?_,
    single := unique_update h.single (by simp [Stage.running]), done := ?_ }
  · intro other t ht
    obtain ⟨ho, ht⟩ := of_update rfl ht
    refine ⟨(h.fresh other t ht).1, fun hm => ?_⟩
    rcases List.mem_append.1 hm with hm | hm
    · exact (h.fresh other t ht).2 hm
    · rw [List.mem_singleton.1 hm] at ht
      exact ho (h.distinct other thread task ht hpend)
  · intro t ht
    rcases List.mem_append.1 ht with ht | ht
    · exact h.numbered t ht
    · rw [List.mem_singleton.1 ht]
      exact (h.fresh thread task hpend).1
  · rw [List.nodup_append_comm]
    exact List.nodup_cons.2 ⟨(h.fresh thread task hpend).2, h.nodup⟩
  · intro other t ht
    rcases update_of (p := fun s => s.accepted = some t) ht with ⟨_, ht⟩ | ⟨_, ht⟩
    · obtain rfl := Option.some.inj ht
      exact List.mem_append_right _ (List.mem_singleton_self _)
    · exact List.mem_append_left _ (h.accepted other t ht)
  · exact fun t ht => List.mem_append_left _ (h.futures t ht)
  · apply (h.split.append_right [task]).trans
    rw [List.append_assoc, ← List.append_assoc l.taken, List.append_assoc (l.taken ++ tasks)]
    exact List.Perm.append_left _ List.perm_append_comm
  · rw [← List.append_assoc]
    exact h.order.append_right [task]
  · exact fun other t ht => h.running other t (of_update rfl ht).2
  · intro t ht
    rcases h.done t ht with hf | ⟨other, hr⟩
    · exact .inl hf
    · exact .inr ⟨other, running_update hr (by simp [hs, Stage.running])⟩

theorem Accounted.take (h : Accounted (task :: tasks) l stage) (hs : stage thread = .take) :
    Accounted tasks { l with taken := l.taken ++ [task] }
      (Function.update stage thread (.unlock task)) := by
  have hnodup : (l.taken ++ task :: tasks ++ l.flushed).Nodup := h.split.nodup_iff.1 h.nodup
  have hnew : task ∉ l.taken := by
    intro hm
    rw [List.append_assoc, List.nodup_append] at hnodup
    exact hnodup.2.2 task hm task (by simp) rfl
  refine { h with
    fresh := ?_, distinct := unique_update h.distinct (by simp [Stage.pending]), accepted := ?_,
    split := ?_, order := ?_, running := ?_, single := unique_update h.single ?_, done := ?_,
    finished := ?_ }
  · exact fun other t ht => h.fresh other t (of_update rfl ht).2
  · exact fun other t ht => h.accepted other t (of_update rfl ht).2
  · simpa using h.split
  · simpa using h.order
  · intro other t ht
    rcases update_of (p := fun s => s.running = some t) ht with ⟨_, ht⟩ | ⟨_, ht⟩
    · obtain rfl := Option.some.inj ht
      exact ⟨by simp, fun hf => hnew (h.finished _ hf)⟩
    · exact ⟨List.mem_append_left _ (h.running other t ht).1, (h.running other t ht).2⟩
  · intro t ht other ho
    obtain rfl := Option.some.inj ht
    exact hnew (h.running other _ ho).1
  · intro t ht
    rcases List.mem_append.1 ht with ht | ht
    · rcases h.done t ht with hf | ⟨other, hr⟩
      · exact .inl hf
      · exact .inr ⟨other, running_update hr (by simp [hs, Stage.running])⟩
    · rw [List.mem_singleton.1 ht]
      exact .inr ⟨thread, by rw [Function.update_self]; rfl⟩
  · exact fun t ht => List.mem_append_left _ (h.finished t ht)

theorem Accounted.finish (h : Accounted tasks l stage) (hs : stage thread = .run task) :
    Accounted tasks { l with finished := l.finished ++ [task] }
      (Function.update stage thread .lock) := by
  have hrun : (stage thread).running = some task := by rw [hs]; rfl
  refine { h with
    fresh := ?_, distinct := unique_update h.distinct (by simp [Stage.pending]), accepted := ?_,
    running := ?_, single := unique_update h.single (by simp [Stage.running]), done := ?_,
    finished := ?_, once := ?_ }
  · exact fun other t ht => h.fresh other t (of_update rfl ht).2
  · exact fun other t ht => h.accepted other t (of_update rfl ht).2
  · intro other t ht
    obtain ⟨ho, ht⟩ := of_update rfl ht
    refine ⟨(h.running other t ht).1, fun hf => ?_⟩
    rcases List.mem_append.1 hf with hf | hf
    · exact (h.running other t ht).2 hf
    · rw [List.mem_singleton.1 hf] at ht
      exact ho (h.single other thread task ht hrun)
  · intro t ht
    rcases h.done t ht with hf | ⟨other, hr⟩
    · exact .inl (List.mem_append_left _ hf)
    · by_cases ht' : t = task
      · rw [ht']
        exact .inl (List.mem_append_right _ (List.mem_singleton_self _))
      · exact .inr ⟨other, running_update hr (by simp [hrun, Ne.symm ht'])⟩
  · intro t ht
    rcases List.mem_append.1 ht with ht | ht
    · exact h.finished t ht
    · rw [List.mem_singleton.1 ht]
      exact (h.running thread task hrun).1
  · rw [List.nodup_append_comm]
    exact List.nodup_cons.2 ⟨(h.running thread task hrun).2, h.once⟩

theorem Accounted.move (h : Accounted tasks l stage)
    (hp : x.pending = none ∨ x.pending = (stage thread).pending)
    (ha : x.accepted = none ∨ x.accepted = (stage thread).accepted)
    (hr : x.running = (stage thread).running) :
    Accounted tasks l (Function.update stage thread x) := by
  refine h.mono (fun other t ht => kept_update hp ht) (fun other t ht => kept_update ha ht) ?_
  intro other
  by_cases ho : other = thread
  · rw [ho, Function.update_self, hr]
  · rw [Function.update_of_ne ho]

end

namespace Pool
variable [DecidableEq κ] {s s' : Pool n κ} {thread : Thread n κ} {x : Stage}

def Accounted (s : Pool n κ) : Prop := BuiltinThreadPool.Accounted s.tasks s.ledger s.stage

theorem Accounted.acquire (h : s.Accounted) (ha : s.acquire thread x = some s')
    (hp : x.pending = none ∨ x.pending = (s.stage thread).pending) (hc : x.accepted = none)
    (hr : x.running = (s.stage thread).running) : s'.Accounted := by
  rw [Pool.acquire] at ha
  split_ifs at ha
  obtain rfl := Option.some.inj ha
  exact h.move hp (.inl hc) hr

theorem Accounted.step (h : s.Accounted) (hs : s.step thread = some s') : s'.Accounted := by
  rw [Pool.step] at hs
  cases hst : s.stage thread with
  | take =>
    cases ht : s.tasks with
    | nil => simp [hst, ht] at hs
    | cons task tasks =>
      simp only [hst, ht, Option.some.injEq] at hs
      subst hs
      rw [Accounted, ht] at h
      exact h.take hst
  | run task =>
    simp only [hst, Option.some.injEq] at hs
    subst hs
    exact h.finish hst
  | push task =>
    simp only [hst, Option.some.injEq] at hs
    subst hs
    exact h.push hst
  | clear =>
    simp only [hst, Option.some.injEq] at hs
    subst hs
    exact (h.move (.inl rfl) (.inl rfl) (by rw [hst]; rfl)).clear
  | wait =>
    simp only [hst, Option.some.injEq] at hs
    subst hs
    split_ifs
    · exact h.move (.inl rfl) (.inl rfl) (by rw [hst]; rfl)
    · exact h.move (.inl rfl) (.inl rfl) (by rw [hst]; rfl)
  | test =>
    simp only [hst, Option.some.injEq] at hs
    subst hs
    split_ifs
    · exact h.move (.inl rfl) (.inl rfl) (by rw [hst]; rfl)
    · exact h.move (.inl rfl) (.inl rfl) (by rw [hst]; rfl)
  | check task =>
    simp only [hst, Option.some.injEq] at hs
    subst hs
    split_ifs
    · exact h.move (.inl rfl) (.inl rfl) (by rw [hst]; rfl)
    · exact h.move (.inr (by rw [hst]; rfl)) (.inl rfl) (by rw [hst]; rfl)
  | enqueue task =>
    simp only [hst] at hs
    exact h.acquire hs (.inr (by rw [hst]; rfl)) rfl (by rw [hst]; rfl)
  | lock =>
    simp only [hst] at hs
    exact h.acquire hs (.inl rfl) rfl (by rw [hst]; rfl)
  | relock =>
    simp only [hst] at hs
    exact h.acquire hs (.inl rfl) rfl (by rw [hst]; rfl)
  | flush =>
    simp only [hst] at hs
    exact h.acquire hs (.inl rfl) rfl (by rw [hst]; rfl)
  | pushed task =>
    simp only [hst, Option.some.injEq] at hs
    subst hs
    exact h.move (.inl rfl) (.inr (by rw [hst]; rfl)) (by rw [hst]; rfl)
  | sleep =>
    simp only [hst, Option.some.injEq] at hs
    subst hs
    exact h.move (.inl rfl) (.inl rfl) (by rw [hst]; rfl)
  | unlock task =>
    simp only [hst, Option.some.injEq] at hs
    subst hs
    exact h.move (.inl rfl) (.inl rfl) (by rw [hst]; rfl)
  | leave =>
    simp only [hst, Option.some.injEq] at hs
    subst hs
    exact h.move (.inl rfl) (.inl rfl) (by rw [hst]; rfl)
  | throw =>
    simp only [hst, Option.some.injEq] at hs
    subst hs
    exact h.move (.inl rfl) (.inl rfl) (by rw [hst]; rfl)
  | cleared =>
    simp only [hst, Option.some.injEq] at hs
    subst hs
    exact h.move (.inl rfl) (.inl rfl) (by rw [hst]; rfl)
  | _ => simp [hst] at hs

theorem Accounted.notifyOne (h : s.Accounted) (hs : s.notifyOne i w = some s') :
    s'.Accounted := by
  rw [Pool.notifyOne.eq_def] at hs
  split at hs
  case h_1 task w hst =>
    split_ifs at hs with hw
    obtain rfl := Option.some.inj hs
    have hpushed := h.accepted (.client i) task (by rw [hst]; rfl)
    have hwoken : (s.move (.worker w) .relock).Accounted :=
      h.move (.inl rfl) (.inl rfl) (by rw [hw]; rfl)
    have hmoved : ((s.move (.worker w) .relock).move (.client i) .idle).Accounted :=
      hwoken.move (.inl rfl) (.inl rfl) (by simp [Pool.move, hst, Stage.running])
    exact hmoved.future hpushed
  case h_2 task hst =>
    split_ifs at hs with hw
    obtain rfl := Option.some.inj hs
    have hpushed := h.accepted (.client i) task (by rw [hst]; rfl)
    have hmoved : (s.move (.client i) .idle).Accounted :=
      h.move (.inl rfl) (.inl rfl) (by rw [hst]; rfl)
    exact hmoved.future hpushed
  case h_3 => cases hs

theorem Accounted.next (h : s.Accounted) (hs : s.next a = some s') : s'.Accounted := by
  cases a with
  | enqueue i =>
    rw [Pool.next] at hs
    split_ifs at hs with hi
    obtain rfl := Option.some.inj hs
    exact h.call (by rw [hi]; rfl)
  | flush i =>
    rw [Pool.next] at hs
    split_ifs at hs with hi
    obtain rfl := Option.some.inj hs
    exact h.move (.inl rfl) (.inl rfl) (by rw [hi]; rfl)
  | step thread => exact h.step hs
  | notifyOne i w => exact h.notifyOne hs
  | spuriousWake w =>
    rw [Pool.next] at hs
    split_ifs at hs with hw
    obtain rfl := Option.some.inj hs
    exact h.move (.inl rfl) (.inl rfl) (by rw [hw]; rfl)
  | stop =>
    rw [Pool.next] at hs
    split_ifs at hs
    obtain rfl := Option.some.inj hs
    exact h
  | notifyAll =>
    rw [Pool.next] at hs
    split_ifs at hs
    obtain rfl := Option.some.inj hs
    refine BuiltinThreadPool.Accounted.mono h ?_ ?_ ?_
    · intro thread task ht
      cases hst : s.stage thread <;> simp_all [Stage.wake, Stage.pending]
    · intro thread task ht
      cases hst : s.stage thread <;> simp_all [Stage.wake, Stage.accepted]
    · intro thread
      cases hst : s.stage thread <;> simp [Stage.wake, Stage.running, hst]
  | join =>
    rw [Pool.next] at hs
    split_ifs at hs
    obtain rfl := Option.some.inj hs
    exact h

theorem Runs.accounted (h : s.Runs) : s.Accounted := by
  refine Reachable.invariant h ?_ fun s s' _ hl ⟨a, ha⟩ => hl.next ha
  rintro _ rfl
  have hs : ∀ thread : Thread n κ, (start.stage thread).pending = none ∧
      (start.stage thread).accepted = none ∧ (start.stage thread).running = none := by
    rintro (w | i) <;> exact ⟨rfl, rfl, rfl⟩
  exact ⟨by simp [hs], by simp [hs], by simp [start], .nil, by simp [hs], by simp [start], .nil,
    .slnil, by simp [hs], by simp [hs], by simp [start], by simp [start], .nil⟩

end Pool

/-- The stages that belong to the loop of a worker. -/
def Stage.ofWorker : Stage → Bool
  | .idle | .enqueue _ | .check _ | .push _ | .pushed _ | .notify _ | .throw => false
  | .flush | .clear | .cleared => false
  | _ => true

inductive Place where
  | queued
  | running
  | finished
  | flushed

namespace Pool
variable [DecidableEq κ] {s s' : Pool n κ} {thread : Thread n κ}

/-- Where a task is. -/
def At (s : Pool n κ) (task : Nat) : Place → Prop
  | .queued => task ∈ s.tasks
  | .running => ∃ w, (s.stage (.worker w)).running = some task
  | .finished => task ∈ s.ledger.finished
  | .flushed => task ∈ s.ledger.flushed

def Roles (s : Pool n κ) : Prop := ∀ i, (s.stage (.client i)).ofWorker = false

theorem acquire_stage (ha : s.acquire thread x = some s') :
    s'.stage = Function.update s.stage thread x ∧ s'.stop = s.stop ∧
      s'.destructor = s.destructor := by
  rw [acquire] at ha
  split_ifs at ha
  obtain rfl := Option.some.inj ha
  exact ⟨rfl, rfl, rfl⟩

theorem step_stage (hs : s.step thread = some s') :
    ∃ x, (s'.stage = Function.update s.stage thread x ∧ s'.stop = s.stop ∧
      s'.destructor = s.destructor) ∧ x.ofWorker = (s.stage thread).ofWorker ∧
      (x = .sleep → s.stop = false) ∧ (x = .asleep → s.stage thread = .sleep) := by
  rw [step] at hs
  cases hst : s.stage thread with
  | lock | relock | enqueue task | flush =>
    simp only [hst] at hs
    exact ⟨_, acquire_stage hs, rfl, by simp, by simp⟩
  | wait =>
    simp only [hst, Option.some.injEq] at hs
    subst hs
    refine ⟨_, ⟨rfl, rfl, rfl⟩, ?_, ?_, ?_⟩ <;> split_ifs with hp <;>
      simp_all [Stage.ofWorker]
  | test | check task =>
    simp only [hst, Option.some.injEq] at hs
    subst hs
    refine ⟨_, ⟨rfl, rfl, rfl⟩, ?_, ?_, ?_⟩ <;> split_ifs <;> simp [Stage.ofWorker]
  | take =>
    cases ht : s.tasks with
    | nil => simp [hst, ht] at hs
    | cons task tasks =>
      simp only [hst, ht, Option.some.injEq] at hs
      subst hs
      exact ⟨_, ⟨rfl, rfl, rfl⟩, rfl, by simp, by simp⟩
  | asleep | exited | idle | notify task => simp [hst] at hs
  | _ =>
    simp only [hst, Option.some.injEq] at hs
    subst hs
    exact ⟨_, ⟨rfl, rfl, rfl⟩, rfl, by simp, by simp⟩

theorem Roles.move (h : s.Roles) (hs : s'.stage = Function.update s.stage thread x)
    (hx : x.ofWorker = (s.stage thread).ofWorker) : s'.Roles := by
  intro i
  rw [hs]
  by_cases hi : Thread.client i = thread
  · rw [hi, Function.update_self, hx, ← hi]
    exact h i
  · rw [Function.update_of_ne hi]
    exact h i

theorem Roles.next (h : s.Roles) (hs : s.next a = some s') : s'.Roles := by
  cases a with
  | enqueue i =>
    rw [Pool.next] at hs
    split_ifs at hs with hi
    obtain rfl := Option.some.inj hs
    exact h.move rfl (by rw [hi]; rfl)
  | flush i =>
    rw [Pool.next] at hs
    split_ifs at hs with hi
    obtain rfl := Option.some.inj hs
    exact h.move rfl (by rw [hi]; rfl)
  | step thread =>
    obtain ⟨x, ⟨hst, _⟩, hx, _⟩ := step_stage hs
    exact h.move hst hx
  | notifyOne i w =>
    rw [Pool.next, Pool.notifyOne.eq_def] at hs
    split at hs
    case h_1 task w hst =>
      split_ifs at hs with hw
      obtain rfl := Option.some.inj hs
      have hwoken : (s.move (.worker w) .relock).Roles := h.move rfl (by rw [hw]; rfl)
      exact hwoken.move rfl (by simp [hst, Stage.ofWorker])
    case h_2 task hst =>
      split_ifs at hs with hw
      obtain rfl := Option.some.inj hs
      exact h.move rfl (by rw [hst]; rfl)
    case h_3 => cases hs
  | spuriousWake w =>
    rw [Pool.next] at hs
    split_ifs at hs with hw
    obtain rfl := Option.some.inj hs
    exact h.move rfl (by rw [hw]; rfl)
  | stop =>
    rw [Pool.next] at hs
    split_ifs at hs
    obtain rfl := Option.some.inj hs
    exact h
  | notifyAll =>
    rw [Pool.next] at hs
    split_ifs at hs
    obtain rfl := Option.some.inj hs
    intro i
    have hi := h i
    cases hst : s.stage (.client i) <;> simp_all [Stage.wake, Stage.ofWorker]
  | join =>
    rw [Pool.next] at hs
    split_ifs at hs
    obtain rfl := Option.some.inj hs
    exact h

theorem Runs.roles (h : s.Runs) : s.Roles := by
  refine Reachable.invariant h ?_ fun s s' _ hl ⟨a, ha⟩ => hl.next ha
  rintro _ rfl i
  rfl

/-- A task that has been taken is being run by a worker, or it has been. -/
theorem Runs.taken (h : s.Runs) (ht : task ∈ s.ledger.taken) :
    s.At task .finished ∨ s.At task .running := by
  rcases h.accounted.done task ht with hf | ⟨thread, hr⟩
  · exact .inl hf
  · cases thread with
    | worker w => exact .inr ⟨w, hr⟩
    | client i =>
      have hi := h.roles i
      cases hst : s.stage (.client i) <;> simp_all [Stage.running, Stage.ofWorker]

theorem Runs.place_exists (h : s.Runs) (ht : task ∈ s.ledger.pushed) :
    ∃ place, s.At task place := by
  rw [h.accounted.split.mem_iff, List.append_assoc, List.mem_append, List.mem_append] at ht
  rcases ht with ht | ht | ht
  · rcases h.taken ht with hf | hr
    · exact ⟨_, hf⟩
    · exact ⟨_, hr⟩
  · exact ⟨.queued, ht⟩
  · exact ⟨.flushed, ht⟩

theorem Runs.place_unique (h : s.Runs) (hp : s.At task place) (hq : s.At task place') :
    place = place' := by
  have ha := h.accounted
  have hnodup := ha.split.nodup_iff.1 ha.nodup
  rw [List.append_assoc, List.nodup_append, List.nodup_append] at hnodup
  obtain ⟨_, ⟨_, _, hqf⟩, htr⟩ := hnodup
  have htaken : s.At task .running ∨ s.At task .finished → task ∈ s.ledger.taken := by
    rintro (⟨w, hr⟩ | hf)
    · exact (ha.running _ task hr).1
    · exact ha.finished task hf
  have hrf : s.At task .running → s.At task .finished → False := by
    rintro ⟨w, hr⟩ hf
    exact (ha.running _ task hr).2 hf
  have htq : task ∈ s.ledger.taken → s.At task .queued → False := fun ht hq =>
    htr task ht task (List.mem_append_left _ hq) rfl
  have htf : task ∈ s.ledger.taken → s.At task .flushed → False := fun ht hq =>
    htr task ht task (List.mem_append_right _ hq) rfl
  have hqf : s.At task .queued → s.At task .flushed → False := fun hq hf =>
    hqf task hq task hf rfl
  cases place <;> cases place' <;> simp_all

/-- For any number of workers and clients and in any order of their steps: a task whose future has
been returned has been pushed; one that has been pushed is either in the queue or being run or run
or flushed, the tasks are taken in the order in which they were pushed, none of them twice; and when
every worker has ended the queue is empty, and every task has been run or flushed. -/
theorem tasks_accounted (hn : 0 < n) (h : s.Runs) :
    (∀ task ∈ s.ledger.futures, task ∈ s.ledger.pushed) ∧
    (∀ task ∈ s.ledger.pushed, ∃! place, s.At task place) ∧
    (∀ thread other task, (s.stage thread).running = some task →
      (s.stage other).running = some task → thread = other) ∧
    s.ledger.taken.Sublist s.ledger.pushed ∧ s.ledger.taken.Nodup ∧ s.ledger.finished.Nodup ∧
    ((∀ w, s.stage (.worker w) = .exited) → s.tasks = [] ∧
      ∀ task ∈ s.ledger.pushed, task ∈ s.ledger.finished ∨ task ∈ s.ledger.flushed) := by
  have ha := h.accounted
  have horder : s.ledger.taken.Sublist s.ledger.pushed :=
    (List.sublist_append_left _ _).trans ha.order
  refine ⟨ha.futures, fun task ht => ?_, ha.single, horder, ha.nodup.sublist horder, ha.once, ?_⟩
  · obtain ⟨place, hp⟩ := h.place_exists ht
    exact ⟨place, hp, fun _ hq => h.place_unique hq hp⟩
  · intro hw
    have hempty := (h.locked.ended (.worker ⟨0, hn⟩) (by rw [hw]; rfl)).2
    refine ⟨hempty, fun task ht => ?_⟩
    obtain ⟨place, hp⟩ := h.place_exists ht
    cases place with
    | queued => simp [At, hempty] at hp
    | running =>
      obtain ⟨w, hr⟩ := hp
      rw [hw] at hr
      cases hr
    | finished => exact .inl hp
    | flushed => exact .inr hp

def solo : Thread 1 Unit := .worker 0

def runOne : List (Action 1 Unit) :=
  [Action.enqueue ()] ++ List.replicate 4 (Action.step (.client ())) ++
    [Action.notifyOne () none] ++ List.replicate 6 (Action.step solo) ++
    [Action.stop, Action.notifyAll] ++ List.replicate 4 (Action.step solo)

theorem tasks_accounted_runOne : ∃ s : Pool 1 Unit, exec next start runOne = some s ∧
    s.ledger.futures = [0] ∧ (∀ w, s.stage (.worker w) = .exited) ∧
    (∀ task ∈ s.ledger.futures, task ∈ s.ledger.pushed) ∧
    (∀ task ∈ s.ledger.pushed, ∃! place, s.At task place) ∧
    (∀ thread other task, (s.stage thread).running = some task →
      (s.stage other).running = some task → thread = other) ∧
    s.ledger.taken.Sublist s.ledger.pushed ∧ s.ledger.taken.Nodup ∧ s.ledger.finished.Nodup ∧
    ((∀ w, s.stage (.worker w) = .exited) → s.tasks = [] ∧
      ∀ task ∈ s.ledger.pushed, task ∈ s.ledger.finished ∨ task ∈ s.ledger.flushed) := by
  obtain ⟨s, hs, hf, hw⟩ : ∃ s : Pool 1 Unit, exec next start runOne = some s ∧
      s.ledger.futures = [0] ∧ ∀ w, s.stage (.worker w) = .exited := ⟨_, rfl, rfl, by decide⟩
  exact ⟨s, hs, hf, hw, tasks_accounted Nat.one_pos (Reachable.exec (.start rfl) hs)⟩

end Pool

end OnnxruntimeServer.BuiltinThreadPool
