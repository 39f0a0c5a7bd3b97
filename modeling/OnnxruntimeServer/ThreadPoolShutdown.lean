import OnnxruntimeServer.ThreadPool

namespace OnnxruntimeServer.BuiltinThreadPool
set_option autoImplicit true
open Transition

namespace Pool
variable {s s' : Pool n κ} {thread : Thread n κ}

/-- `notify_all` is behind the destructor. -/
def Notified (s : Pool n κ) : Prop := s.destructor = .notified ∨ s.destructor = .joined

/-- `stop` is set and every thread that slept has been woken, and yet a worker sleeps. -/
def Stuck (s : Pool n κ) : Prop := s.Notified ∧ ∃ w, s.stage (.worker w) = .asleep

/-- The destructor has set `stop` unless it has not begun. -/
def Stopped (s : Pool n κ) : Prop := s.destructor ≠ .idle → s.stop = true

theorem Notified.stop (h : s.Notified) (hs : s.Stopped) : s.stop = true :=
  hs (by rcases h with h | h <;> simp [h])

/-- No worker sleeps, or is about to. -/
def Awake (s : Pool n κ) : Prop :=
  ∀ w, s.stage (.worker w) ≠ .sleep ∧ s.stage (.worker w) ≠ .asleep

theorem Awake.not_stuck (h : s.Awake) : ¬ s.Stuck := by
  rintro ⟨_, w, hw⟩
  exact (h w).2 hw

variable [DecidableEq κ]

def settled (s : Pool n κ) : Action n κ → Bool
  | .notifyAll => decide (∀ w, s.stage (.worker w) ≠ .sleep)
  | _ => true

def settledNext (s : Pool n κ) (a : Action n κ) : Option (Pool n κ) :=
  if s.settled a then s.next a else none

theorem next_destructor (hs : s.next a = some s') :
    s'.stop = s.stop ∧ s'.destructor = s.destructor ∨
    s.destructor = .idle ∧ s'.stop = true ∧ s'.destructor = .stopped ∨
    a = .notifyAll ∧ s.destructor = .stopped ∧ s'.stop = s.stop ∧ s'.destructor = .notified ∨
    s.destructor = .notified ∧ s'.stop = s.stop ∧ s'.destructor = .joined := by
  cases a with
  | step thread =>
    obtain ⟨x, ⟨_, hstop, hd⟩, _⟩ := step_stage hs
    exact .inl ⟨hstop, hd⟩
  | notifyOne i w =>
    rw [next, notifyOne.eq_def] at hs
    split at hs
    case h_1 =>
      split_ifs at hs
      obtain rfl := Option.some.inj hs
      exact .inl ⟨rfl, rfl⟩
    case h_2 =>
      split_ifs at hs
      obtain rfl := Option.some.inj hs
      exact .inl ⟨rfl, rfl⟩
    case h_3 => cases hs
  | enqueue i | flush i | spuriousWake w =>
    rw [next] at hs
    split_ifs at hs
    obtain rfl := Option.some.inj hs
    exact .inl ⟨rfl, rfl⟩
  | stop =>
    rw [next] at hs
    split_ifs at hs with hd
    obtain rfl := Option.some.inj hs
    exact .inr (.inl ⟨hd, rfl, rfl⟩)
  | notifyAll =>
    rw [next] at hs
    split_ifs at hs with hd
    obtain rfl := Option.some.inj hs
    exact .inr (.inr (.inl ⟨rfl, hd, rfl, rfl⟩))
  | join =>
    rw [next] at hs
    split_ifs at hs with hd
    obtain rfl := Option.some.inj hs
    exact .inr (.inr (.inr ⟨hd.1, rfl, rfl⟩))

theorem Stopped.next (h : s.Stopped) (hs : s.next a = some s') : s'.Stopped := by
  intro hd
  rcases next_destructor hs with ⟨hst, hd'⟩ | ⟨_, hst, _⟩ | ⟨_, hd', hst, _⟩ | ⟨hd', hst, _⟩
  · rw [hst]
    exact h (hd' ▸ hd)
  · exact hst
  · rw [hst]
    exact h (by simp [hd'])
  · rw [hst]
    exact h (by simp [hd'])

theorem Runs.stopped (h : s.Runs) : s.Stopped := by
  refine Reachable.invariant h ?_ fun s s' _ hl ⟨a, ha⟩ => hl.next ha
  rintro _ rfl hd
  exact absurd rfl hd

theorem Notified.next (h : s.Notified) (hs : s.next a = some s') : s'.Notified := by
  rcases next_destructor hs with ⟨_, hd⟩ | ⟨hd, _⟩ | ⟨_, hd, _⟩ | ⟨_, _, hd⟩
  · rwa [Notified, hd]
  · rcases h with h | h <;> simp [hd] at h
  · rcases h with h | h <;> simp [hd] at h
  · exact .inr hd

theorem Awake.move (h : s.Awake) (hst : s'.stage = Function.update s.stage thread x)
    (hx : x ≠ .sleep) (hx' : x = .asleep → s.stage thread = .sleep) : s'.Awake := by
  intro w
  rw [hst]
  by_cases hw : Thread.worker w = thread
  · rw [hw, Function.update_self]
    exact ⟨hx, fun he => (h w).1 (by rw [hw, hx' he])⟩
  · rw [Function.update_of_ne hw]
    exact h w

theorem Awake.next (h : s.Awake) (hstop : s.stop = true) (hs : s.next a = some s') :
    s'.Awake := by
  cases a with
  | step thread =>
    obtain ⟨x, ⟨hst, _⟩, _, hx, hx'⟩ := step_stage hs
    exact h.move hst (fun he => by simp [hx he] at hstop) hx'
  | notifyOne i w =>
    rw [Pool.next, notifyOne.eq_def] at hs
    split at hs
    case h_1 task w hst =>
      split_ifs at hs
      obtain rfl := Option.some.inj hs
      have hwoken : (s.move (.worker w) .relock).Awake := h.move rfl (by simp) (by simp)
      exact hwoken.move rfl (by simp) (by simp)
    case h_2 task hst =>
      split_ifs at hs
      obtain rfl := Option.some.inj hs
      exact h.move rfl (by simp) (by simp)
    case h_3 => cases hs
  | enqueue i | flush i | spuriousWake w =>
    rw [Pool.next] at hs
    split_ifs at hs
    obtain rfl := Option.some.inj hs
    exact h.move rfl (by simp) (by simp)
  | stop | join =>
    rw [Pool.next] at hs
    split_ifs at hs
    obtain rfl := Option.some.inj hs
    exact h
  | notifyAll =>
    rw [Pool.next] at hs
    split_ifs at hs
    obtain rfl := Option.some.inj hs
    intro w
    have hw := h w
    cases hst : s.stage (.worker w) <;> simp_all [Stage.wake]

/-- `notify_all` wakes every worker that sleeps. -/
theorem awake_of_settled (hs : s.next .notifyAll = some s')
    (hw : ∀ w, s.stage (.worker w) ≠ .sleep) : s'.Awake := by
  rw [next] at hs
  split_ifs at hs
  obtain rfl := Option.some.inj hs
  intro w
  have hw := hw w
  cases hst : s.stage (.worker w) <;> simp_all [Stage.wake]

/-- The states of a run after `notify_all` has been executed in some state. -/
def After (s : Pool n κ) : Pool n κ → Prop :=
  Reachable (fun s' => s.next .notifyAll = some s') fun s s' => ∃ a, s.next a = some s'

theorem After.awake (hs : s.Stopped) (hw : ∀ w, s.stage (.worker w) ≠ .sleep) (h : s.After s') :
    s'.Awake := by
  have hinv : s'.Stopped ∧ s'.Notified ∧ s'.Awake := by
    refine @Reachable.invariant _ _ _ s' (fun s => s.Stopped ∧ s.Notified ∧ s.Awake) h ?_ ?_
    · intro s' hs'
      refine ⟨hs.next hs', ?_, awake_of_settled hs' hw⟩
      rw [next] at hs'
      split_ifs at hs'
      obtain rfl := Option.some.inj hs'
      exact .inl rfl
    · rintro s s' - ⟨hst, hn, ha⟩ ⟨a, hs⟩
      exact ⟨hst.next hs, hn.next hs, ha.next (hn.stop hst) hs⟩
  exact hinv.2.2

/-- A worker that has looked at `stop` too early goes to sleep after all have been notified. -/
theorem stuck_after (hd : s.destructor = .stopped) (hw : s.stage (.worker w) = .sleep) :
    ∃ s', s.After s' ∧ s'.Stuck := by
  let notified : Pool n κ :=
    { s with stage := fun thread => (s.stage thread).wake, destructor := .notified }
  have hn : s.next .notifyAll = some notified := by rw [next, if_pos hd]
  have hsleep : notified.stage (.worker w) = .sleep := by simp [notified, hw, Stage.wake]
  have hstep : notified.next (.step (.worker w)) = some (notified.release (.worker w) .asleep) := by
    simp only [next, step, hsleep]
  exact ⟨_, .next (.start hn) ⟨_, hstep⟩, .inl rfl, w, Function.update_self _ _ _⟩

/-- As long as no worker is between its look at `stop` and its sleep when all are notified, the
destructor does not get stuck; and it can get stuck if there is one at that moment. -/
theorem shutdown_stuck_iff :
    (∀ s : Pool n κ, Reachable (· = start) (fun s s' => ∃ a, s.settledNext a = some s') s →
      ¬ s.Stuck) ∧
    ∀ s : Pool n κ, s.Runs → s.destructor = .stopped →
      ((∀ w, s.stage (.worker w) ≠ .sleep) ↔ ∀ s', s.After s' → ¬ s'.Stuck) := by
  refine ⟨fun s h => ?_, fun s h hd => ⟨fun hw s' ha => (ha.awake h.stopped hw).not_stuck, ?_⟩⟩
  · have hinv : s.Stopped ∧ (s.Notified → s.Awake) := by
      refine @Reachable.invariant _ _ _ s (fun s => s.Stopped ∧ (s.Notified → s.Awake)) h ?_ ?_
      · rintro _ rfl
        exact ⟨fun hd => absurd rfl hd, fun hn => by simp [Notified, start] at hn⟩
      · rintro s s' - ⟨hst, ha⟩ ⟨a, hs⟩
        rw [settledNext] at hs
        split_ifs at hs with hset
        refine ⟨hst.next hs, fun hn => ?_⟩
        rcases next_destructor hs with ⟨_, hd⟩ | ⟨_, _, hd⟩ | ⟨rfl, _⟩ | ⟨hd, _⟩
        · have hn' : s.Notified := by
            rwa [Notified, hd] at hn
          exact (ha hn').next (hn'.stop hst) hs
        · simp [Notified, hd] at hn
        · exact awake_of_settled hs (of_decide_eq_true hset)
        · have hn' : s.Notified := .inl hd
          exact (ha hn').next (hn'.stop hst) hs
    intro hstuck
    exact (hinv.2 hstuck.1).not_stuck hstuck
  · intro h w hw
    obtain ⟨s', ha, hs⟩ := stuck_after hd hw
    exact h s' ha hs

def stopAsleep : List (Action 1 Unit) :=
  List.replicate 3 (Action.step solo) ++ [Action.stop, Action.notifyAll] ++
    List.replicate 4 (Action.step solo) ++ [Action.join]

theorem shutdown_stuck_iff_stopAsleep : ∃ s : Pool 1 Unit,
    exec settledNext start stopAsleep = some s ∧ s.destructor = .joined ∧ ¬ s.Stuck := by
  obtain ⟨s, hs, hd⟩ : ∃ s : Pool 1 Unit, exec settledNext start stopAsleep = some s ∧
      s.destructor = .joined := ⟨_, rfl, rfl⟩
  exact ⟨s, hs, hd, shutdown_stuck_iff.1 s (Reachable.exec (.start rfl) hs)⟩

/-- The only worker finds nothing to do, and goes to sleep when all have been notified. -/
theorem shutdown_gets_stuck : ∃ s : Pool 1 Unit, s.Runs ∧ s.Stuck := by
  obtain ⟨s, hs, hd, hw⟩ : ∃ s : Pool 1 Unit, exec next start
      [.step solo, .step solo, .stop, .notifyAll, .step solo] = some s ∧
      s.destructor = .notified ∧ s.stage (.worker 0) = .asleep := ⟨_, rfl, rfl, rfl⟩
  exact ⟨s, Reachable.exec (.start rfl) hs, .inl hd, 0, hw⟩

end Pool

end OnnxruntimeServer.BuiltinThreadPool
