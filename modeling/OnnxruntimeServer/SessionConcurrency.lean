import OnnxruntimeServer.SessionStore
import OnnxruntimeServer.Lib.Transition

namespace OnnxruntimeServer
set_option autoImplicit true
open Linearizable Transition

/-- The answers of `model_bin_getter` and of the two constructors of a session, each of which may
be an exception at any time. -/
structure Loader (S : Type) where
  model_bin_getter : Bytes → Bytes → Except Exception Bytes
  fromData : SessionKey → Bytes → Json → Except Exception S
  fromPath : SessionKey → Bytes → Json → Except Exception S

/-- The members of `session_manager` that its calls share: the recursive mutex, with its owner and
the number of times it is locked, and the map. -/
structure Shared (ι S : Type) where
  mutex : Option (ι × Nat)
  sessions : Sessions S

/-- What a call does next. -/
inductive Stage (S : Type) where
  | enter
  | lock (key : SessionKey)
  | relock (key : SessionKey)
  | find (key : SessionKey)
  | unlockInner (key : SessionKey) (current_session : Option S)
  | check (key : SessionKey) (current_session : Option S)
  | build (key : SessionKey) (source : ModelSource)
  | emplace (key : SessionKey) (session : S)
  | erase (key : SessionKey)
  | unlock (res : Ret S)
  | leave (res : Ret S)

namespace Shared

/-- Locks the mutex again for the client that has it, and waits while another one has it. -/
def lock [DecidableEq ι] (shared : Shared ι S) (i : ι) : Option (Shared ι S) :=
  match shared.mutex with
  | none => some { shared with mutex := some (i, 1) }
  | some (j, n) => if j = i then some { shared with mutex := some (i, n + 1) } else none

def unlock (shared : Shared ι S) : Shared ι S :=
  match shared.mutex with
  | some (j, n + 2) => { shared with mutex := some (j, n + 1) }
  | _ => { shared with mutex := none }

def hold [DecidableEq ι] (shared : Shared ι S) (i : ι) : Nat :=
  match shared.mutex with
  | some (j, n) => if j = i then n else 0
  | none => 0

end Shared

def looked (call : Call) (key : SessionKey) (it : Option S) : Stage S :=
  match call, it with
  | .create _ _ _ _, it => .unlockInner key it
  | .get _ _, it => .unlock (.found it)
  | .remove _ _, none => .unlock (.failed notFoundError)
  | .remove _ _, some _ => .erase key

def checked (option : Json) (model_data : Option Bytes) (key : SessionKey) : Option S → Stage S
  | some _ => .unlock (.failed conflictError)
  | none => .build key (modelSource option model_data)

/-- After a part of the session's construction, which may have thrown. -/
def built (next : α → Stage S) : Except Exception α → Stage S
  | .ok a => next a
  | .error e => .unlock (.failed e)

/-- The branches of `create_session` that make the session, or the model that it is made from. -/
def construct (loader : Loader S) (model_name model_version : Bytes) (option : Json)
    (key : SessionKey) : ModelSource → Stage S
  | .data data => built (.emplace key) (loader.fromData key data option)
  | .path path => built (.emplace key) (loader.fromPath key path option)
  | .getter => built (fun bin => .build key (.data bin))
    (loader.model_bin_getter model_name model_version)

/-- The next step of a call of client `i`, unless it has to wait. -/
def advance [DecidableEq ι] (loader : Loader S) (i : ι) (call : Call) (shared : Shared ι S) :
    Stage S → Option (Stage S × Shared ι S)
  | .enter =>
    match call.key with
    | .ok key => some (.lock key, shared)
    | .error e => some (.leave (.failed e), shared)
  | .lock key =>
    match call with
    | .create _ _ _ _ => (shared.lock i).map fun shared => (.relock key, shared)
    | _ => (shared.lock i).map fun shared => (.find key, shared)
  | .relock key => (shared.lock i).map fun shared => (.find key, shared)
  | .find key => some (looked call key (shared.sessions.find key), shared)
  | .unlockInner key current_session => some (.check key current_session, shared.unlock)
  | .check key current_session =>
    match call with
    | .create _ _ option model_data =>
      some (checked option model_data key current_session, shared)
    | _ => none
  | .build key source =>
    match call with
    | .create name version option _ =>
      some (construct loader name version option key source, shared)
    | _ => none
  | .emplace key session => some (.unlock (.created session),
    { shared with sessions := shared.sessions.emplace key session })
  | .erase key => some (.unlock .removed, { shared with sessions := shared.sessions.erase key })
  | .unlock res => some (.leave res, shared.unlock)
  | .leave _ => none

/-- A call under way, with the number it got when it was made. -/
structure CallFrame (S : Type) where
  id : Nat
  call : Call
  stage : Stage S

/-- The manager and its clients, any number of them, and what they have called and got so far. -/
structure Clients (ι S : Type) where
  shared : Shared ι S
  frame : ι → Option (CallFrame S)
  calls : Nat
  history : List (Event Call (Ret S))

inductive ClientAction (ι S : Type) where
  | call (i : ι) (call : Call)
  | advance (i : ι) (loader : Loader S)
  | ret (i : ι)

namespace Clients

def start : Clients ι S := ⟨⟨none, OrderedMap.empty⟩, fun _ => none, 0, []⟩

def next [DecidableEq ι] (s : Clients ι S) : ClientAction ι S → Option (Clients ι S)
  | .call i call =>
    match s.frame i with
    | none => some
        { s with frame := Function.update s.frame i (some ⟨s.calls, call, .enter⟩),
                 calls := s.calls + 1, history := s.history ++ [.call s.calls call] }
    | some _ => none
  | .advance i loader =>
    match s.frame i with
    | some f => (OnnxruntimeServer.advance loader i f.call s.shared f.stage).map fun r =>
        { s with shared := r.2, frame := Function.update s.frame i (some { f with stage := r.1 }) }
    | none => none
  | .ret i =>
    match s.frame i with
    | some ⟨id, _, .leave res⟩ => some
        { s with frame := Function.update s.frame i none, history := s.history ++ [.ret id res] }
    | _ => none

/-- The states that the clients can bring the manager into, in any order of their steps. -/
def Runs [DecidableEq ι] : Clients ι S → Prop :=
  Reachable (· = start) fun s s' => ∃ a, s.next a = some s'

end Clients

theorem Shared.hold_unique [DecidableEq ι] {shared : Shared ι S} {i j : ι}
    (hi : 0 < shared.hold i) (hj : j ≠ i) : shared.hold j = 0 := by
  rw [hold] at *
  cases hm : shared.mutex with
  | none => rfl
  | some m =>
    simp only [hm] at hi ⊢
    split_ifs at hi with h
    · rw [if_neg fun h' => hj (h'.symm.trans h)]
    · exact absurd hi (lt_irrefl 0)

theorem Shared.lock_spec [DecidableEq ι] {shared shared' : Shared ι S} {i : ι}
    (h : shared.lock i = some shared') :
    shared'.sessions = shared.sessions ∧ shared'.hold i = shared.hold i + 1 ∧
      ∀ j ≠ i, shared'.hold j = shared.hold j := by
  rw [lock] at h
  cases hm : shared.mutex with
  | none =>
    simp only [hm, Option.some.injEq] at h
    subst h
    refine ⟨rfl, by simp [hold, hm], ?_⟩
    intro j hj
    simp [hold, hm, Ne.symm hj]
  | some m =>
    simp only [hm] at h
    split_ifs at h with hi
    obtain rfl := Option.some.inj h
    refine ⟨rfl, by simp [hold, hm, hi], ?_⟩
    intro j hj
    simp [hold, hm, hi, Ne.symm hj]

theorem Shared.unlock_spec [DecidableEq ι] {shared : Shared ι S} {i : ι} (hi : 0 < shared.hold i) :
    shared.unlock.sessions = shared.sessions ∧ shared.unlock.hold i + 1 = shared.hold i ∧
      ∀ j ≠ i, shared.unlock.hold j = shared.hold j := by
  cases hm : shared.mutex with
  | none => simp [hold, hm] at hi
  | some m =>
    obtain ⟨j, n⟩ := m
    obtain rfl : j = i := by
      by_contra hj
      simp [hold, hm, hj] at hi
    rcases n with _ | _ | n
    · simp [hold, hm] at hi
    · refine ⟨by simp [unlock, hm], by simp [unlock, hold, hm], ?_⟩
      intro k hk
      simp [unlock, hold, hm, Ne.symm hk]
    · refine ⟨by simp [unlock, hm], by simp [unlock, hold, hm], ?_⟩
      intro k hk
      simp [unlock, hold, hm, Ne.symm hk]

def Call.IsCreate (call : Call) : Prop :=
  ∃ name version option data, call = .create name version option data

def Call.IsRemove (call : Call) : Prop := ∃ name version, call = .remove name version

namespace Stage

def depth (call : Call) : Stage S → Nat
  | .enter | .lock _ | .leave _ => 0
  | .find _ =>
    match call with
    | .create _ _ _ _ => 2
    | _ => 1
  | .unlockInner _ _ => 2
  | _ => 1

def result : Stage S → Option (Ret S)
  | .unlock res | .leave res => some res
  | _ => none

/-- What a call knows of the map while it has the mutex. -/
def Fits (call : Call) (sessions : Sessions S) : Stage S → Prop
  | .enter | .unlock _ | .leave _ => True
  | .lock key | .find key => call.key = .ok key
  | .relock key => call.key = .ok key ∧ call.IsCreate
  | .unlockInner key current_session | .check key current_session =>
    call.key = .ok key ∧ call.IsCreate ∧ current_session = sessions.find key
  | .build key _ | .emplace key _ =>
    call.key = .ok key ∧ call.IsCreate ∧ sessions.find key = none
  | .erase key => call.key = .ok key ∧ call.IsRemove ∧ sessions.find key ≠ none

theorem Fits.of_unlocked {stage : Stage S} (h : stage.Fits call sessions)
    (hd : stage.depth call = 0) (sessions' : Sessions S) : stage.Fits call sessions' := by
  cases stage with
  | enter => trivial
  | lock key => exact h
  | leave res => trivial
  | find key => exact h
  | relock key => exact h
  | unlock res => trivial
  | _ => simp [depth] at hd

end Stage

/-- What one step of a call of client `i` does. -/
structure Advanced [DecidableEq ι] (i : ι) (call : Call) (shared : Shared ι S) (stage : Stage S)
    (shared' : Shared ι S) (stage' : Stage S) : Prop where
  hold : shared'.hold i = stage'.depth call
  others : ∀ j ≠ i, shared'.hold j = shared.hold j
  fits : stage'.Fits call shared'.sessions
  exclusive : shared'.sessions = shared.sessions ∨ 0 < shared.hold i
  effect : stage'.result = stage.result ∧ shared'.sessions = shared.sessions ∨
    stage.result = none ∧
      ∃ res, stage'.result = some res ∧ StoreSpec shared.sessions call res shared'.sessions

section
variable [DecidableEq ι] {i : ι} {shared shared' : Shared ι S} {stage stage' : Stage S}

theorem Advanced.local (hd : shared.hold i = stage'.depth call)
    (hf : stage'.Fits call shared.sessions) (hr : stage'.result = stage.result) :
    Advanced i call shared stage shared stage' :=
  ⟨hd, fun _ _ => rfl, hf, .inl rfl, .inl ⟨hr, rfl⟩⟩

theorem Advanced.commit (hd : shared.hold i = stage'.depth call)
    (hf : stage'.Fits call shared.sessions) (hn : stage.result = none)
    (hr : stage'.result = some res) (hs : StoreSpec shared.sessions call res shared.sessions) :
    Advanced i call shared stage shared stage' :=
  ⟨hd, fun _ _ => rfl, hf, .inl rfl, .inr ⟨hn, res, hr, hs⟩⟩

theorem Advanced.lock (h : shared.lock i = some shared')
    (hd : shared.hold i + 1 = stage'.depth call) (hf : stage'.Fits call shared.sessions)
    (hr : stage'.result = stage.result) : Advanced i call shared stage shared' stage' := by
  obtain ⟨hs, hi, ho⟩ := Shared.lock_spec h
  exact ⟨hi.trans hd, ho, hs ▸ hf, .inl hs, .inl ⟨hr, hs⟩⟩

theorem Advanced.unlock (hi : 0 < shared.hold i) (hd : shared.hold i = stage'.depth call + 1)
    (hf : stage'.Fits call shared.sessions) (hr : stage'.result = stage.result) :
    Advanced i call shared stage shared.unlock stage' := by
  obtain ⟨hs, hi', ho⟩ := Shared.unlock_spec hi
  exact ⟨Nat.succ_inj.1 (hi'.trans hd), ho, hs ▸ hf, .inl hs, .inl ⟨hr, hs⟩⟩

theorem looked_spec (hk : call.key = .ok key)
    (hd : shared.hold i = (Stage.find key : Stage S).depth call) :
    Advanced i call shared (.find key) shared (looked call key (shared.sessions.find key)) := by
  cases call with
  | create name version option data => exact .local hd ⟨hk, ⟨_, _, _, _, rfl⟩, rfl⟩ rfl
  | get name version => exact .commit hd trivial rfl rfl (.get hk)
  | remove name version =>
    cases hf : shared.sessions.find key with
    | none => exact .commit hd trivial rfl rfl (.notFound hk hf)
    | some session => exact .local hd ⟨hk, ⟨_, _, rfl⟩, by simp [hf]⟩ rfl

theorem built_spec {e : Except Exception α} {next : α → Stage S}
    (hk : (Call.create name version option data).key = .ok key)
    (hn : shared.sessions.find key = none) (hd : shared.hold i = 1)
    (hnext : ∀ a, Advanced i (.create name version option data) shared (.build key source) shared
      (next a)) :
    Advanced i (.create name version option data) shared (.build key source) shared
      (built next e) := by
  cases e with
  | ok a => exact hnext a
  | error e => exact .commit hd trivial rfl rfl (.loadError hk hn)

theorem construct_spec (loader : Loader S)
    (hk : (Call.create name version option data).key = .ok key)
    (hn : shared.sessions.find key = none) (hd : shared.hold i = 1) (source : ModelSource) :
    Advanced i (.create name version option data) shared (.build key source) shared
      (construct loader name version option key source) := by
  cases source with
  | data bin => exact built_spec hk hn hd fun _ => .local hd ⟨hk, ⟨_, _, _, _, rfl⟩, hn⟩ rfl
  | path path => exact built_spec hk hn hd fun _ => .local hd ⟨hk, ⟨_, _, _, _, rfl⟩, hn⟩ rfl
  | getter => exact built_spec hk hn hd fun _ => .local hd ⟨hk, ⟨_, _, _, _, rfl⟩, hn⟩ rfl

theorem advance_spec {loader : Loader S}
    (h : advance loader i call shared stage = some (stage', shared'))
    (hf : stage.Fits call shared.sessions) (hd : shared.hold i = stage.depth call) :
    Advanced i call shared stage shared' stage' := by
  cases stage with
  | enter =>
    rw [advance] at h
    cases hk : call.key with
    | ok key =>
      obtain ⟨rfl, rfl⟩ := Prod.mk.inj (Option.some.inj (by simpa [hk] using h))
      exact .local hd hk rfl
    | error e =>
      obtain ⟨rfl, rfl⟩ := Prod.mk.inj (Option.some.inj (by simpa [hk] using h))
      exact .commit hd trivial rfl rfl (.badKey hk)
  | lock key =>
    cases call with
    | create name version option data =>
      obtain ⟨_, hl, he⟩ := Option.map_eq_some_iff.1 h
      obtain ⟨rfl, rfl⟩ := Prod.mk.inj he
      exact .lock hl (by rw [hd]; rfl) ⟨hf, ⟨_, _, _, _, rfl⟩⟩ rfl
    | get name version =>
      obtain ⟨_, hl, he⟩ := Option.map_eq_some_iff.1 h
      obtain ⟨rfl, rfl⟩ := Prod.mk.inj he
      exact .lock hl (by rw [hd]; rfl) hf rfl
    | remove name version =>
      obtain ⟨_, hl, he⟩ := Option.map_eq_some_iff.1 h
      obtain ⟨rfl, rfl⟩ := Prod.mk.inj he
      exact .lock hl (by rw [hd]; rfl) hf rfl
  | relock key =>
    obtain ⟨hk, name, version, option, data, rfl⟩ := hf
    obtain ⟨_, hl, he⟩ := Option.map_eq_some_iff.1 h
    obtain ⟨rfl, rfl⟩ := Prod.mk.inj he
    exact .lock hl (by rw [hd]; rfl) hk rfl
  | find key =>
    obtain ⟨rfl, rfl⟩ := Prod.mk.inj (Option.some.inj h)
    exact looked_spec hf hd
  | unlockInner key current_session =>
    obtain ⟨rfl, rfl⟩ := Prod.mk.inj (Option.some.inj h)
    exact .unlock (by rw [hd]; exact Nat.two_pos) hd hf rfl
  | check key current_session =>
    obtain ⟨hk, ⟨name, version, option, data, rfl⟩, rfl⟩ := hf
    obtain ⟨rfl, rfl⟩ := Prod.mk.inj (Option.some.inj h)
    cases hc : shared.sessions.find key with
    | none => exact .local hd ⟨hk, ⟨_, _, _, _, rfl⟩, hc⟩ rfl
    | some session => exact .commit hd trivial rfl rfl (.conflict hk (by simp [hc]))
  | build key source =>
    obtain ⟨hk, ⟨name, version, option, data, rfl⟩, hn⟩ := hf
    obtain ⟨rfl, rfl⟩ := Prod.mk.inj (Option.some.inj h)
    exact construct_spec loader hk hn hd source
  | emplace key session =>
    obtain ⟨hk, ⟨name, version, option, data, rfl⟩, hn⟩ := hf
    obtain ⟨rfl, rfl⟩ := Prod.mk.inj (Option.some.inj h)
    exact ⟨hd, fun _ _ => rfl, trivial, .inr (by rw [hd]; exact Nat.one_pos),
      .inr ⟨rfl, _, rfl, .create hk hn⟩⟩
  | erase key =>
    obtain ⟨hk, ⟨name, version, rfl⟩, hn⟩ := hf
    obtain ⟨rfl, rfl⟩ := Prod.mk.inj (Option.some.inj h)
    exact ⟨hd, fun _ _ => rfl, trivial, .inr (by rw [hd]; exact Nat.one_pos),
      .inr ⟨rfl, _, rfl, .remove hk hn⟩⟩
  | unlock res =>
    obtain ⟨rfl, rfl⟩ := Prod.mk.inj (Option.some.inj h)
    exact .unlock (by rw [hd]; exact Nat.one_pos) hd trivial rfl
  | leave res => cases h

end

/-- What a call under way has to do with the order of the calls that have taken effect. -/
structure CallFrame.Ok (f : CallFrame S) (s : Clients ι S)
    (order : List (Entry Call (Ret S))) : Prop where
  called : .call f.id f.call ∈ s.history
  fits : f.stage.Fits f.call s.shared.sessions
  pending : f.stage.result = none → f.id ∉ order.map Entry.id
  done : ∀ res, f.stage.result = some res → ⟨f.id, f.call, res⟩ ∈ order

def CallFrame.depth : Option (CallFrame S) → Nat
  | some f => f.stage.depth f.call
  | none => 0

/-- The calls that have taken effect, in an order that explains the state. -/
structure Clients.Ordered [DecidableEq ι] (s : Clients ι S)
    (order : List (Entry Call (Ret S))) : Prop where
  linear : Linearization StoreSpec OrderedMap.empty s.history order s.shared.sessions
  numbered : ∀ id op, .call id op ∈ s.history → id < s.calls
  hold : ∀ i, s.shared.hold i = CallFrame.depth (s.frame i)
  distinct : ∀ i j f g, s.frame i = some f → s.frame j = some g → f.id = g.id → i = j
  frames : ∀ i f, s.frame i = some f → f.Ok s order

namespace Clients
variable [DecidableEq ι] {s s' : Clients ι S} {order : List (Entry Call (Ret S))}

theorem Ordered.start : (start : Clients ι S).Ordered [] where
  linear := .nil
  numbered := by simp [Clients.start]
  hold _ := rfl
  distinct := by simp [Clients.start]
  frames := by simp [Clients.start]

theorem Ordered.fresh (h : s.Ordered order) : s.calls ∉ order.map Entry.id := by
  intro hm
  obtain ⟨e, he, hid⟩ := List.mem_map.1 hm
  exact absurd (h.numbered _ _ (h.linear.called e he)) (by omega)

theorem frame_update {frame : ι → Option (CallFrame S)} {x : Option (CallFrame S)} {i j : ι}
    (h : Function.update frame i x j = some f) :
    j = i ∧ x = some f ∨ j ≠ i ∧ frame j = some f := by
  by_cases hj : j = i
  · rw [hj, Function.update_self] at h
    exact .inl ⟨hj, h⟩
  · rw [Function.update_of_ne hj] at h
    exact .inr ⟨hj, h⟩

theorem depth_update {frame : ι → Option (CallFrame S)} {x : Option (CallFrame S)} {i : ι}
    {shared shared' : Shared ι S} (h : ∀ j, shared.hold j = CallFrame.depth (frame j))
    (hi : shared'.hold i = CallFrame.depth x) (ho : ∀ j ≠ i, shared'.hold j = shared.hold j)
    (j : ι) : shared'.hold j = CallFrame.depth (Function.update frame i x j) := by
  by_cases hj : j = i
  · rw [hj, Function.update_self, hi]
  · rw [Function.update_of_ne hj, ho j hj, h j]

theorem Ordered.call (h : s.Ordered order) (hi : s.frame i = none) (call : Call) :
    ({ s with frame := Function.update s.frame i (some ⟨s.calls, call, .enter⟩),
              calls := s.calls + 1,
              history := s.history ++ [.call s.calls call] } : Clients ι S).Ordered order where
  linear := h.linear.call h.fresh call
  numbered id op hm := by
    rcases List.mem_append.1 hm with hm | hm
    · exact Nat.lt_succ_of_lt (h.numbered id op hm)
    · obtain ⟨rfl, _⟩ := Event.call.inj (List.mem_singleton.1 hm)
      exact Nat.lt_succ_self _
  hold := depth_update h.hold (by rw [h.hold, hi]; rfl) fun _ _ => rfl
  distinct j k f g hf hg hid := by
    have hlt : ∀ j f, s.frame j = some f → f.id ≠ s.calls := fun j f hf =>
      (h.numbered _ _ (h.frames j f hf).called).ne
    rcases frame_update hf with ⟨rfl, ⟨⟩⟩ | ⟨_, hj⟩
    · rcases frame_update hg with ⟨rfl, ⟨⟩⟩ | ⟨_, hg⟩
      · rfl
      · exact absurd hid.symm (hlt k g hg)
    · rcases frame_update hg with ⟨rfl, ⟨⟩⟩ | ⟨_, hg⟩
      · exact absurd hid (hlt j f hj)
      · exact h.distinct j k f g hj hg hid
  frames j f hf := by
    rcases frame_update hf with ⟨rfl, ⟨⟩⟩ | ⟨_, hf⟩
    · exact ⟨by simp, trivial, fun _ => h.fresh, by simp [Stage.result]⟩
    · have ho := h.frames j f hf
      exact ⟨List.mem_append_left _ ho.called, ho.fits, ho.pending, ho.done⟩

theorem Ordered.ret {id : Nat} {op : Call} (h : s.Ordered order)
    (hi : s.frame i = some ⟨id, op, .leave res⟩) :
    ({ s with frame := Function.update s.frame i none,
              history := s.history ++ [.ret id res] } : Clients ι S).Ordered order where
  linear := h.linear.ret ((h.frames i _ hi).done res rfl)
  numbered id' op hm := by
    rcases List.mem_append.1 hm with hm | hm
    · exact h.numbered id' op hm
    · simp at hm
  hold := depth_update h.hold (by rw [h.hold, hi]; rfl) fun _ _ => rfl
  distinct j k f g hf hg hid := by
    rcases frame_update hf with ⟨_, hn⟩ | ⟨_, hf⟩
    · cases hn
    rcases frame_update hg with ⟨_, hn⟩ | ⟨_, hg⟩
    · cases hn
    exact h.distinct j k f g hf hg hid
  frames j f hf := by
    rcases frame_update hf with ⟨_, hn⟩ | ⟨_, hf⟩
    · cases hn
    have ho := h.frames j f hf
    exact ⟨List.mem_append_left _ ho.called, ho.fits, ho.pending, ho.done⟩

theorem Ordered.move {shared : Shared ι S} {order' : List (Entry Call (Ret S))}
    (h : s.Ordered order) (hi : s.frame i = some f)
    (ha : Advanced i f.call s.shared f.stage shared stage)
    (hl : Linearization StoreSpec OrderedMap.empty s.history order' shared.sessions)
    (hsub : order ⊆ order')
    (hnew : ∀ id ∈ order'.map Entry.id, id ∈ order.map Entry.id ∨ id = f.id)
    (hp : stage.result = none → f.id ∉ order'.map Entry.id)
    (hd : ∀ res, stage.result = some res → ⟨f.id, f.call, res⟩ ∈ order') :
    ({ s with shared := shared,
              frame := Function.update s.frame i (some { f with stage := stage }) } :
      Clients ι S).Ordered order' where
  linear := hl
  numbered := h.numbered
  hold := depth_update h.hold ha.hold ha.others
  distinct j k g g' hg hg' hid := by
    rcases frame_update hg with ⟨rfl, ⟨⟩⟩ | ⟨_, hj⟩
    · rcases frame_update hg' with ⟨rfl, ⟨⟩⟩ | ⟨_, hg'⟩
      · rfl
      · exact h.distinct j k f g' hi hg' hid
    · rcases frame_update hg' with ⟨rfl, ⟨⟩⟩ | ⟨_, hg'⟩
      · exact h.distinct j k g f hj hi hid
      · exact h.distinct j k g g' hj hg' hid
  frames j g hg := by
    rcases frame_update hg with ⟨rfl, ⟨⟩⟩ | ⟨hj, hg⟩
    · exact ⟨(h.frames j f hi).called, ha.fits, hp, hd⟩
    · have ho := h.frames j g hg
      refine ⟨ho.called, ?_, ?_, fun res hr => hsub (ho.done res hr)⟩
      · rcases ha.exclusive with he | he
        · exact he ▸ ho.fits
        · have hz := Shared.hold_unique he hj
          rw [h.hold j, hg] at hz
          exact ho.fits.of_unlocked hz _
      · intro hn hm
        rcases hnew _ hm with hm | hm
        · exact ho.pending hn hm
        · exact hj (h.distinct j i g f hg hi hm)

theorem Ordered.advance {shared : Shared ι S} (h : s.Ordered order) (hi : s.frame i = some f)
    (ha : Advanced i f.call s.shared f.stage shared stage) :
    ∃ order', ({ s with shared := shared,
                        frame := Function.update s.frame i (some { f with stage := stage }) } :
      Clients ι S).Ordered order' := by
  have ho := h.frames i f hi
  rcases ha.effect with ⟨hr, hs⟩ | ⟨hn, res, hr, hs⟩
  · refine ⟨order, h.move hi ha (hs ▸ h.linear) (List.Subset.refl _) (fun _ hm => .inl hm) ?_ ?_⟩
    · exact hr ▸ ho.pending
    · exact hr ▸ ho.done
  · refine ⟨order ++ [⟨f.id, f.call, res⟩], h.move hi ha
      (h.linear.commit ho.called (ho.pending hn) hs) (List.subset_append_left _ _) ?_ ?_ ?_⟩
    · intro id hm
      simpa using hm
    · intro hn'
      rw [hr] at hn'
      cases hn'
    · intro res' hr'
      obtain rfl := Option.some.inj (hr.symm.trans hr')
      simp

/-- In every reachable state the calls that have taken effect can be put in an order that explains
it. -/
theorem Runs.ordered (h : s.Runs) : ∃ order, s.Ordered order := by
  refine @Reachable.invariant _ _ _ s (fun s => ∃ order, s.Ordered order) h ?_ ?_
  · rintro _ rfl
    exact ⟨[], .start⟩
  · rintro s s' - ⟨order, ho⟩ ⟨a, ha⟩
    cases a with
    | call i call =>
      rw [next] at ha
      split at ha
      case h_1 hi =>
        obtain rfl := Option.some.inj ha
        exact ⟨order, ho.call hi call⟩
      case h_2 => cases ha
    | advance i loader =>
      rw [next] at ha
      split at ha
      case h_1 f hi =>
        obtain ⟨r, hr, rfl⟩ := Option.map_eq_some_iff.1 ha
        exact ho.advance hi (advance_spec hr (ho.frames i f hi).fits (by rw [ho.hold, hi]; rfl))
      case h_2 => cases ha
    | ret i =>
      rw [next] at ha
      split at ha
      case h_1 id call res hi =>
        obtain rfl := Option.some.inj ha
        exact ⟨order, ho.ret hi⟩
      case h_2 => cases ha

/-- The results that any number of clients get, in any order of their steps, are those of some
sequential execution on a map, in which a call that returned before another was made comes first. In
it a get answers with what the last create of its key installed, unless a remove followed, a remove
succeeds if and only if the key is registered, a create succeeds only where it is not, and so the
creates and removes of a key that succeed take turns. -/
theorem linearizable (h : s.Runs) :
    ∃ order, Linearization StoreSpec OrderedMap.empty s.history order s.shared.sessions ∧
      (∀ key, Alternate (updates key order)) ∧
      ∀ before e after, order = before ++ e :: after → Explained before e := by
  obtain ⟨order, ho⟩ := h.ordered
  exact ⟨order, ho.linear, alternate ho.linear.legal, fun _ _ _ he => explained ho.linear.legal he⟩

def sizes : Loader Nat where
  model_bin_getter _ _ := .error (exception .runtimeError [])
  fromData _ data _ := .ok data.length
  fromPath _ _ _ := .error (exception .runtimeError [])

def createThenGet : List (ClientAction Bool Nat) :=
  [ClientAction.call false (.create [0x6D] [0x31] (.object []) (some [1, 2])),
      ClientAction.call true (.get [0x6D] [0x31])] ++
    List.replicate 9 (ClientAction.advance false sizes) ++
    List.replicate 4 (ClientAction.advance true sizes) ++
    [ClientAction.ret true, ClientAction.ret false]

theorem linearizable_createThenGet : ∃ s, exec next start createThenGet = some s ∧
    s.history = [.call 0 (.create [0x6D] [0x31] (.object []) (some [1, 2])),
      .call 1 (.get [0x6D] [0x31]), .ret 1 (.found (some 2)), .ret 0 (.created 2)] ∧
    ∃ order, Linearization StoreSpec OrderedMap.empty s.history order s.shared.sessions ∧
      (∀ key, Alternate (updates key order)) ∧
      ∀ before e after, order = before ++ e :: after → Explained before e := by
  obtain ⟨s, hs, hh⟩ : ∃ s : Clients Bool Nat, exec next start createThenGet = some s ∧
      s.history = [.call 0 (.create [0x6D] [0x31] (.object []) (some [1, 2])),
        .call 1 (.get [0x6D] [0x31]), .ret 1 (.found (some 2)), .ret 0 (.created 2)] :=
    ⟨_, rfl, rfl⟩
  exact ⟨s, hs, hh, linearizable (Reachable.exec (.start rfl) hs)⟩

end Clients

end OnnxruntimeServer
