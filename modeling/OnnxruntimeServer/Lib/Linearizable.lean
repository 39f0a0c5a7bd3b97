import Mathlib

namespace Linearizable
set_option autoImplicit true

inductive Event (Op Res : Type) where
  | call (id : Nat) (op : Op)
  | ret (id : Nat) (res : Res)

structure Entry (Op Res : Type) where
  id : Nat
  op : Op
  res : Res

/-- A sequential execution of an object with the transitions `spec`. -/
inductive Legal (spec : σ → Op → Res → σ → Prop) (init : σ) : List (Entry Op Res) → σ → Prop where
  | nil : Legal spec init [] init
  | snoc {e : Entry Op Res} {s s' : σ} : Legal spec init order s → spec s e.op e.res s' →
    Legal spec init (order ++ [e]) s'

/-- A sequential execution that explains a history: it has every operation that has returned, with
the response that was given, and perhaps some that are still under way, and it puts an operation
that returned before another was called in front of it. -/
structure Linearization (spec : σ → Op → Res → σ → Prop) (init : σ) (history : List (Event Op Res))
    (order : List (Entry Op Res)) (final : σ) : Prop where
  legal : Legal spec init order final
  nodup : (order.map Entry.id).Nodup
  called : ∀ e ∈ order, .call e.id e.op ∈ history
  complete : ∀ id res, .ret id res ∈ history → ∃ op, ⟨id, op, res⟩ ∈ order
  ordered : ∀ id res id' op', [.ret id res, .call id' op'].Sublist history →
    id' ∈ order.map Entry.id → [id, id'].Sublist (order.map Entry.id)

variable {spec : σ → Op → Res → σ → Prop} {init s s' : σ} {history : List (Event Op Res)}
  {order : List (Entry Op Res)} {id : Nat} {op : Op} {res : Res}

theorem Legal.split (h : Legal spec init order s) (he : order = before ++ e :: after) :
    ∃ t t', Legal spec init before t ∧ spec t e.op e.res t' := by
  induction h generalizing after with
  | nil => simp at he
  | @snoc order e' t t' hl hs ih =>
    rcases List.eq_nil_or_concat' after with rfl | ⟨after', last, rfl⟩
    · obtain ⟨rfl, hlast⟩ := List.append_inj' he rfl
      obtain rfl := List.singleton_inj.1 hlast
      exact ⟨_, _, hl, hs⟩
    · have he' : order ++ [e'] = (before ++ e :: after') ++ [last] := by
        rw [he, List.append_assoc, List.cons_append]
      exact ih (List.append_inj' he' rfl).1

theorem Linearization.nil : Linearization spec init [] [] init where
  legal := .nil
  nodup := .nil
  called := by simp
  complete := by simp
  ordered := by simp

theorem pair_sublist_append_singleton {x y z : α} {l : List α} :
    [x, y].Sublist (l ++ [z]) ↔ [x, y].Sublist l ∨ x ∈ l ∧ y = z := by
  constructor
  · intro h
    obtain ⟨l₁, l₂, he, h₁, h₂⟩ := List.sublist_append_iff.1 h
    rcases List.sublist_singleton.1 h₂ with rfl | rfl
    · rw [List.append_nil] at he
      exact .inl (he ▸ h₁)
    · have he' : [x] ++ [y] = l₁ ++ [z] := he
      obtain ⟨rfl, hz⟩ := List.append_inj' he' rfl
      exact .inr ⟨List.singleton_sublist.1 h₁, (List.singleton_inj.1 hz)⟩
  · rintro (h | ⟨h, rfl⟩)
    · exact h.trans (List.sublist_append_left _ _)
    · exact (List.singleton_sublist.2 h).append (List.Sublist.refl [y])

theorem Linearization.call (h : Linearization spec init history order s)
    (hn : id ∉ order.map Entry.id) (op : Op) :
    Linearization spec init (history ++ [.call id op]) order s where
  legal := h.legal
  nodup := h.nodup
  called e he := List.mem_append_left _ (h.called e he)
  complete id' res hr := by
    rcases List.mem_append.1 hr with hr | hr
    · exact h.complete id' res hr
    · simp at hr
  ordered a res b op' hs hb := by
    rcases pair_sublist_append_singleton.1 hs with hs | ⟨_, he⟩
    · exact h.ordered a res b op' hs hb
    · obtain ⟨rfl, _⟩ := Event.call.inj he
      exact absurd hb hn

/-- An operation under way takes effect and gets its place at the end of the order. -/
theorem Linearization.commit (h : Linearization spec init history order s)
    (hc : .call id op ∈ history) (hn : id ∉ order.map Entry.id) (hs : spec s op res s') :
    Linearization spec init history (order ++ [⟨id, op, res⟩]) s' where
  legal := .snoc h.legal hs
  nodup := by
    rw [List.map_append, List.map_singleton, List.nodup_append_comm]
    exact List.nodup_cons.2 ⟨hn, h.nodup⟩
  called e he := by
    rcases List.mem_append.1 he with he | he
    · exact h.called e he
    · rw [List.mem_singleton.1 he]
      exact hc
  complete id' res' hr := by
    obtain ⟨op', ho⟩ := h.complete id' res' hr
    exact ⟨op', List.mem_append_left _ ho⟩
  ordered a res' b op' hsub hb := by
    rw [List.map_append, List.map_singleton] at hb ⊢
    rcases List.mem_append.1 hb with hb | hb
    · exact (h.ordered a res' b op' hsub hb).trans (List.sublist_append_left _ _)
    · rw [List.mem_singleton.1 hb]
      obtain ⟨op'', ha⟩ := h.complete a res' (hsub.subset (by simp))
      exact pair_sublist_append_singleton.2 (.inr ⟨List.mem_map_of_mem ha, rfl⟩)

theorem Linearization.ret (h : Linearization spec init history order s)
    (he : ⟨id, op, res⟩ ∈ order) : Linearization spec init (history ++ [.ret id res]) order s where
  legal := h.legal
  nodup := h.nodup
  called e he := List.mem_append_left _ (h.called e he)
  complete id' res' hr := by
    rcases List.mem_append.1 hr with hr | hr
    · exact h.complete id' res' hr
    · obtain ⟨rfl, rfl⟩ := Event.ret.inj (List.mem_singleton.1 hr)
      exact ⟨op, he⟩
  ordered a res' b op' hs hb := by
    rcases pair_sublist_append_singleton.1 hs with hs | ⟨_, he⟩
    · exact h.ordered a res' b op' hs hb
    · cases he

end Linearizable
