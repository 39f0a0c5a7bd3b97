import OnnxruntimeServer.SessionManager
import OnnxruntimeServer.Lib.Linearizable

namespace OnnxruntimeServer
set_option autoImplicit true
open Linearizable

abbrev Sessions (S : Type) := OrderedMap SessionKey S

/-- What a call may answer on a map of sessions, and the map after it. -/
inductive StoreSpec : Sessions S → Call → Ret S → Sessions S → Prop where
  | create : (Call.create name version option data).key = .ok key → sessions.find key = none →
    StoreSpec sessions (.create name version option data) (.created session)
      (sessions.emplace key session)
  | conflict : (Call.create name version option data).key = .ok key → sessions.find key ≠ none →
    StoreSpec sessions (.create name version option data) (.failed conflictError) sessions
  | loadError : (Call.create name version option data).key = .ok key → sessions.find key = none →
    StoreSpec sessions (.create name version option data) (.failed e) sessions
  | get : (Call.get name version).key = .ok key →
    StoreSpec sessions (.get name version) (.found (sessions.find key)) sessions
  | remove : (Call.remove name version).key = .ok key → sessions.find key ≠ none →
    StoreSpec sessions (.remove name version) .removed (sessions.erase key)
  | notFound : (Call.remove name version).key = .ok key → sessions.find key = none →
    StoreSpec sessions (.remove name version) (.failed notFoundError) sessions
  | badKey : call.key = .error e → StoreSpec sessions call (.failed e) sessions

/-- A successful create or remove of a key: what is registered for the key after it. -/
def update (key : SessionKey) (e : Entry Call (Ret S)) : Option (Option S) :=
  if e.op.key = .ok key then
    match e.res with
    | .created session => some (some session)
    | .removed => some none
    | _ => none
  else none

/-- The successful creates and removes of a key, in order. -/
def updates (key : SessionKey) (order : List (Entry Call (Ret S))) : List (Option S) :=
  order.filterMap (update key)

/-- The session that the last successful create of a key installed, unless a remove followed. -/
def installed (key : SessionKey) (order : List (Entry Call (Ret S))) : Option S :=
  (updates key order).getLast?.join

/-- Creates and removes take turns, and a create is the first of them. -/
def Alternate (updates : List (Option S)) : Prop :=
  (none :: updates).IsChain fun a b => a.isSome ≠ b.isSome

/-- The answer of a call agrees with what the calls before it have installed. -/
def Explained (before : List (Entry Call (Ret S))) (e : Entry Call (Ret S)) : Prop :=
  ∀ key, e.op.key = .ok key →
    (∀ session, e.res = .created session → installed key before = none) ∧
    (∀ session, e.res = .found session → session = installed key before) ∧
    (∀ name version, e.op = .remove name version →
      (e.res = .removed ↔ installed key before ≠ none))

theorem updates_snoc (key : SessionKey) (order : List (Entry Call (Ret S)))
    (e : Entry Call (Ret S)) :
    updates key (order ++ [e]) = updates key order ++ (update key e).toList := by
  rw [updates, List.filterMap_append, ← updates]
  cases h : update key e <;> simp [h]

theorem installed_snoc_none {e : Entry Call (Ret S)} (h : update key e = none)
    (order : List (Entry Call (Ret S))) :
    installed key (order ++ [e]) = installed key order := by
  rw [installed, updates_snoc, h, Option.toList_none, List.append_nil, installed]

theorem installed_snoc_some {e : Entry Call (Ret S)} (h : update key e = some u)
    (order : List (Entry Call (Ret S))) : installed key (order ++ [e]) = u := by
  rw [installed, updates_snoc, h, Option.toList_some, List.getLast?_concat]
  rfl

/-- What a call does to the entry of a key is what it counts as. -/
theorem StoreSpec.find {sessions sessions' : Sessions S}
    (h : StoreSpec sessions call res sessions') (key : SessionKey) (n : Nat) :
    sessions'.find key = (update key ⟨n, call, res⟩).getD (sessions.find key) ∧
      ∀ u, update key ⟨n, call, res⟩ = some u → (sessions.find key).isSome ≠ u.isSome := by
  cases h with
  | @create _ _ _ _ k _ _ hk hf =>
    simp only [update, hk, Except.ok.injEq]
    split_ifs with he
    · subst he
      simp [OrderedMap.find_emplace_self _ hf, hf]
    · simp [OrderedMap.find_emplace_of_ne _ (Ne.symm he)]
  | @remove _ _ k _ hk hf =>
    simp only [update, hk, Except.ok.injEq]
    split_ifs with he
    · subst he
      simpa [OrderedMap.find_erase_self] using hf
    · simp [OrderedMap.find_erase_of_ne _ (Ne.symm he)]
  | _ => simp [update]

variable {S : Type} {order : List (Entry Call (Ret S))} {sessions : Sessions S}

theorem find_eq_installed (h : Legal StoreSpec OrderedMap.empty order sessions)
    (key : SessionKey) : sessions.find key = installed key order := by
  induction h with
  | nil => rfl
  | @snoc order e s s' hl hs ih =>
    have hf := (StoreSpec.find hs key e.id).1
    cases hu : update key e with
    | none =>
      rw [installed_snoc_none hu, ← ih, hf, hu]
      rfl
    | some u =>
      rw [installed_snoc_some hu, hf, hu]
      rfl

theorem alternate (h : Legal StoreSpec OrderedMap.empty order sessions) (key : SessionKey) :
    Alternate (updates key order) := by
  induction h with
  | nil => exact List.IsChain.singleton _
  | @snoc order e s s' hl hs ih =>
    rw [updates_snoc]
    cases hu : update key e with
    | none => simpa [hu] using ih
    | some u =>
      have hflip := (StoreSpec.find hs key e.id).2 u hu
      rw [find_eq_installed hl key, installed] at hflip
      rw [Option.toList_some, Alternate, ← List.cons_append]
      apply ih.append (List.IsChain.singleton _)
      intro a ha b hb
      obtain rfl := Option.some.inj hb
      rw [List.getLast?_cons, Option.mem_some_iff] at ha
      rw [← ha]
      cases hlast : (updates key order).getLast? with
      | none => simpa [hlast] using hflip
      | some v => simpa [hlast] using hflip

/-- Every call of a sequential execution is explained by the creates and removes before it. -/
theorem explained (h : Legal StoreSpec OrderedMap.empty order sessions)
    (he : order = before ++ e :: after) : Explained before e := by
  obtain ⟨t, t', hl, hs⟩ := h.split he
  intro key hk
  rw [← find_eq_installed hl key]
  obtain ⟨n, op, res⟩ := e
  refine ⟨?_, ?_, ?_⟩
  · rintro session rfl
    cases hs with
    | create hk' hf =>
      obtain rfl := Except.ok.inj (hk.symm.trans hk')
      exact hf
  · rintro session rfl
    cases hs with
    | get hk' =>
      obtain rfl := Except.ok.inj (hk.symm.trans hk')
      rfl
  · rintro name version rfl
    cases hs with
    | remove hk' hf =>
      obtain rfl := Except.ok.inj (hk.symm.trans hk')
      simp [hf]
    | notFound hk' hf =>
      obtain rfl := Except.ok.inj (hk.symm.trans hk')
      simp [hf]
    | badKey hk' => exact absurd (hk.symm.trans hk') (by simp)

end OnnxruntimeServer
