import Mathlib

namespace Transition
set_option autoImplicit true

inductive Reachable (init : σ → Prop) (step : σ → σ → Prop) : σ → Prop where
  | start : init s → Reachable init step s
  | next : Reachable init step s → step s s' → Reachable init step s'

theorem Reachable.invariant {inv : σ → Prop} (h : Reachable init step s)
    (hinit : ∀ s, init s → inv s)
    (hstep : ∀ s s', Reachable init step s → inv s → step s s' → inv s') : inv s := by
  induction h with
  | start hi => exact hinit _ hi
  | next hr hs ih => exact hstep _ _ hr ih hs

/-- The state after a list of actions, if each of them is possible in its turn. -/
def exec (next : σ → α → Option σ) : σ → List α → Option σ
  | s, [] => some s
  | s, a :: as => (next s a).bind fun s' => exec next s' as

theorem Reachable.exec {next : σ → α → Option σ}
    (h : Reachable init (fun s s' => ∃ a, next s a = some s') s)
    (he : exec next s as = some s') : Reachable init (fun s s' => ∃ a, next s a = some s') s' := by
  induction as generalizing s with
  | nil =>
    obtain rfl := Option.some.inj he
    exact h
  | cons a as ih =>
    rw [Transition.exec] at he
    obtain ⟨t, ht, he⟩ := Option.bind_eq_some_iff.1 he
    exact ih (.next h ⟨a, ht⟩) he

section
variable {next : σ → α → Option σ} {p : α → Prop} {measure : σ → Nat}

/-- Where each action of a kind lowers a measure, a run of such actions is no longer than the
measure at its start. -/
theorem length_add_le_of_exec
    (hlt : ∀ s a s', p a → next s a = some s' → measure s' < measure s) (ha : ∀ a ∈ as, p a)
    (he : exec next s as = some s') : as.length + measure s' ≤ measure s := by
  induction as generalizing s with
  | nil =>
    obtain rfl := Option.some.inj he
    exact (Nat.zero_add _).le
  | cons a as ih =>
    rw [exec] at he
    obtain ⟨t, ht, he⟩ := Option.bind_eq_some_iff.1 he
    have hfirst := hlt s a t (ha a List.mem_cons_self) ht
    have hrest := ih (fun b hb => ha b (List.mem_cons_of_mem a hb)) he
    rw [List.length_cons]
    omega

theorem exists_exec_final (hlt : ∀ s a s', p a → next s a = some s' → measure s' < measure s)
    (s : σ) : ∃ as s', (∀ a ∈ as, p a) ∧ exec next s as = some s' ∧
      ∀ a, p a → next s' a = none := by
  induction hm : measure s using Nat.strong_induction_on generalizing s with
  | _ m ih =>
    subst hm
    by_cases hfinal : ∀ a, p a → next s a = none
    · exact ⟨[], s, by simp, rfl, hfinal⟩
    · push Not at hfinal
      obtain ⟨a, ha, hne⟩ := hfinal
      obtain ⟨t, ht⟩ := Option.ne_none_iff_exists'.1 hne
      obtain ⟨as, s', has, he, hlast⟩ := ih _ (hlt s a t ha ht) t rfl
      refine ⟨a :: as, s', ?_, ?_, hlast⟩
      · intro b hb
        rcases List.mem_cons.1 hb with rfl | hb
        · exact ha
        · exact has b hb
      · rw [exec, ht]
        exact he

end

end Transition
