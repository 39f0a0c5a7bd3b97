import Mathlib

namespace OnnxruntimeServer
set_option autoImplicit true
namespace FirstOccurrences

variable [BEq α] [LawfulBEq α] {xs ys : List α} {a : α}

/-- One step of a loop that collects what it has not seen. -/
def addNew (seen : List α) (a : α) : List α := if a ∈ seen then seen else seen ++ [a]

theorem eraseDups_snoc (xs : List α) (a : α) :
    (xs ++ [a]).eraseDups = if a ∈ xs then xs.eraseDups else xs.eraseDups ++ [a] := by
  rw [List.eraseDups_append]
  by_cases ha : a ∈ xs
  · simp [List.removeAll, ha]
  · have hone : [a].eraseDups = [a] := rfl
    simp [List.removeAll, ha, hone]

theorem addNew_eraseDups (xs : List α) (a : α) :
    addNew xs.eraseDups a = (xs ++ [a]).eraseDups := by
  rw [addNew, eraseDups_snoc]
  exact if_congr List.mem_eraseDups rfl rfl

theorem foldl_addNew (xs ys : List α) : ys.foldl addNew xs.eraseDups = (xs ++ ys).eraseDups := by
  induction ys generalizing xs with
  | nil => simp
  | cons a ys ih =>
    rw [List.foldl_cons, addNew_eraseDups, ih, List.append_assoc, List.singleton_append]

theorem nodup_eraseDups (xs : List α) : xs.eraseDups.Nodup := by
  induction xs using List.reverseRecOn with
  | nil => simp
  | append_singleton xs a ih =>
    rw [eraseDups_snoc]
    split
    · exact ih
    · rename_i ha
      apply List.nodup_append.2
      refine ⟨ih, List.nodup_singleton a, ?_⟩
      intro b hb c hc
      rw [List.mem_singleton.1 hc]
      rintro rfl
      exact ha (List.mem_eraseDups.1 hb)

theorem eraseDups_of_nodup (h : xs.Nodup) : xs.eraseDups = xs := by
  induction xs using List.reverseRecOn with
  | nil => rfl
  | append_singleton xs a ih =>
    obtain ⟨hxs, _, hdisjoint⟩ := List.nodup_append.1 h
    have ha : a ∉ xs := fun ha => hdisjoint a ha a (List.mem_singleton.2 rfl) rfl
    rw [eraseDups_snoc, if_neg ha, ih hxs]

theorem eraseDups_filter (p : α → Bool) (xs : List α) :
    (xs.filter p).eraseDups = xs.eraseDups.filter p := by
  induction xs using List.reverseRecOn with
  | nil => rfl
  | append_singleton xs a ih =>
    rw [List.filter_append, eraseDups_snoc]
    by_cases hp : p a = true
    · have hmem : a ∈ xs.filter p ↔ a ∈ xs := by simp [hp]
      rw [List.filter_cons_of_pos hp, List.filter_nil, eraseDups_snoc, ih]
      by_cases ha : a ∈ xs
      · rw [if_pos (hmem.2 ha), if_pos ha]
      · rw [if_neg (mt hmem.1 ha), if_neg ha, List.filter_append, List.filter_cons_of_pos hp,
          List.filter_nil]
    · rw [List.filter_cons_of_neg hp, List.filter_nil, List.append_nil, ih]
      by_cases ha : a ∈ xs
      · rw [if_pos ha]
      · rw [if_neg ha, List.filter_append, List.filter_cons_of_neg hp, List.filter_nil,
          List.append_nil]

/-- What comes first may be left out exactly when the rest starts with it anyway. -/
theorem eraseDups_append_eq_iff (xs ys : List α) :
    (xs ++ ys).eraseDups = ys.eraseDups ↔ xs.eraseDups <+: ys.eraseDups := by
  rw [List.eraseDups_append]
  constructor
  · intro h
    rw [← h]
    exact List.prefix_append _ _
  · rintro ⟨rest, hrest⟩
    have hnodup := nodup_eraseDups ys
    rw [← hrest] at hnodup
    have hdisjoint := (List.nodup_append.1 hnodup).2.2
    have hfirst : xs.eraseDups.filter (fun a => !xs.elem a) = [] := by
      rw [List.filter_eq_nil_iff]
      intro a ha
      simpa using List.mem_eraseDups.1 ha
    have hothers : rest.filter (fun a => !xs.elem a) = rest := by
      rw [List.filter_eq_self]
      intro a ha
      simpa using fun hmem => hdisjoint a (List.mem_eraseDups.2 hmem) a ha rfl
    rw [List.removeAll, eraseDups_filter, ← hrest, List.filter_append, hfirst, hothers,
      List.nil_append]

end FirstOccurrences
end OnnxruntimeServer
