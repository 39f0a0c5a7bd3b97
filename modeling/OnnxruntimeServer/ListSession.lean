import OnnxruntimeServer.SessionConcurrency

namespace OnnxruntimeServer
set_option autoImplicit true
open Linearizable Transition

def load (loader : Loader S) (model_name model_version : Bytes) (option : Json)
    (key : SessionKey) : ModelSource → Except Exception S
  | .data data => loader.fromData key data option
  | .path path => loader.fromPath key path option
  | .getter => (loader.model_bin_getter model_name model_version).bind fun bin =>
    loader.fromData key bin option

/-- The end of `create_session`, with the session or what its construction has thrown. -/
def finish (key : SessionKey) (sessions : Sessions S) : Except Exception S → Ret S × Sessions S
  | .ok session => (.created session, sessions.emplace key session)
  | .error e => (.failed e, sessions)

/-- A call as one step: what it does while no other call has the mutex. -/
def perform (loader : Loader S) (call : Call) (sessions : Sessions S) : Ret S × Sessions S :=
  match call.key with
  | .error e => (.failed e, sessions)
  | .ok key =>
    match call, sessions.find key with
    | .create _ _ _ _, some _ => (.failed conflictError, sessions)
    | .create name version option data, none =>
      finish key sessions (load loader name version option key (modelSource option data))
    | .get _ _, it => (.found it, sessions)
    | .remove _ _, none => (.failed notFoundError, sessions)
    | .remove _ _, some _ => (.removed, sessions.erase key)

/-- The iterator of the copy. -/
inductive Cursor where
  | entry (key : SessionKey)
  | stop
  | invalid
  deriving DecidableEq

/-- Where `list_session::run` is with the copy of the map that `get_sessions` refers to. -/
inductive Listing (S : Type) where
  | idle
  | copying (sessions : List (SessionKey × S)) (cursor : Cursor)
  | returned (sessions : List (SessionKey × S))
  | undefined

namespace Cursor

def ofKey : Option SessionKey → Cursor
  | some key => .entry key
  | none => .stop

/-- An erased entry takes the iterators to it with it. -/
def afterCall (cursor : Cursor) (call : Call) (res : Ret S) : Cursor :=
  match cursor, call.key, res with
  | .entry k, .ok key, .removed => if key = k then .invalid else cursor
  | _, _, _ => cursor

/-- Whether the copy has gone past the place of a key. -/
def passed (key : SessionKey) : Cursor → Bool
  | .entry k => key < k
  | .stop => true
  | .invalid => false

/-- The entries that are still to be copied. -/
def ahead (sessions : Sessions S) : Cursor → List (SessionKey × S)
  | .entry key => sessions.entriesFrom key
  | _ => []

end Cursor

def touched (call : Call) (res : Ret S) : Option SessionKey :=
  match call.key, res with
  | .ok key, .created _ => some key
  | .ok key, .removed => some key
  | _, _ => none

/-- The manager, a request that lists the sessions, the maps there have been since that request
began, and whether a key that its copy had passed has been touched. -/
structure Listed (S : Type) where
  sessions : Sessions S
  listing : Listing S
  since : List (Sessions S)
  stale : Bool

inductive ListAction (S : Type) where
  | call (call : Call) (loader : Loader S)
  | list
  | copy

namespace Listed

def next (s : Listed S) : ListAction S → Option (Listed S)
  | .call call loader =>
    let (res, sessions) := perform loader call s.sessions
    match s.listing with
    | .copying copied cursor => some
        { sessions := sessions, listing := .copying copied (cursor.afterCall call res),
          since := s.since ++ [sessions],
          stale := s.stale || (touched call res).any cursor.passed }
    | _ => some { s with sessions := sessions }
  | .list =>
    match s.listing with
    | .idle => some
        { s with listing := .copying [] (.ofKey s.sessions.first), since := [s.sessions],
                 stale := false }
    | _ => none
  | .copy =>
    match s.listing with
    | .copying copied (.entry key) =>
      match s.sessions.find key with
      | some session => some
          { s with listing := .copying (copied ++ [(key, session)])
                    (.ofKey (s.sessions.next key)) }
      | none => some { s with listing := .undefined }
    | .copying copied .stop => some { s with listing := .returned copied }
    | .copying _ .invalid => some { s with listing := .undefined }
    | _ => none

/-- While the copy is under way, a call touches a key that it has passed, or one that is still ahead
of it and not the next one, and then no key that it had passed has been touched before. -/
def orderly (s : Listed S) : ListAction S → Bool
  | .call call loader =>
    match s.listing with
    | .copying _ cursor => (touched call (perform loader call s.sessions).1).all fun key =>
        cursor.passed key || (!s.stale && cursor ≠ .entry key)
    | _ => true
  | _ => true

def orderlyNext (s : Listed S) (a : ListAction S) : Option (Listed S) :=
  if s.orderly a then s.next a else none

/-- The list that was returned is the map at some time since the request began. -/
def Snapshot (s : Listed S) : Prop :=
  match s.listing with
  | .returned sessions => ∃ m ∈ s.since, sessions = m.entries
  | .undefined => False
  | _ => True

end Listed

theorem perform_spec (loader : Loader S) (call : Call) (sessions : Sessions S) :
    StoreSpec sessions call (perform loader call sessions).1
      (perform loader call sessions).2 := by
  cases hk : call.key with
  | error e =>
    simp only [perform, hk]
    exact .badKey hk
  | ok key =>
    cases call with
    | create name version option data =>
      cases hf : sessions.find key with
      | some session =>
        simp only [perform, hk, hf]
        exact .conflict hk (hf ▸ Option.some_ne_none session)
      | none =>
        simp only [perform, hk, hf]
        cases load loader name version option key (modelSource option data) with
        | ok session => exact .create hk hf
        | error e => exact .loadError hk hf
    | get name version =>
      simp only [perform, hk]
      exact .get hk
    | remove name version =>
      cases hf : sessions.find key with
      | some session =>
        simp only [perform, hk, hf]
        exact .remove hk (hf ▸ Option.some_ne_none session)
      | none =>
        simp only [perform, hk, hf]
        exact .notFound hk hf

/-- The steps of a call while the other clients do nothing. -/
def Steps [DecidableEq ι] (loader : Loader S) (i : ι) (call : Call) :
    Stage S × Shared ι S → Stage S × Shared ι S → Prop :=
  Relation.ReflTransGen fun a b => advance loader i call a.2 a.1 = some b

section
variable [DecidableEq ι] {loader : Loader S} {i : ι} {sessions : Sessions S}

theorem steps_built {e : Except Exception S} :
    Steps loader i call (built (.emplace key) e, ⟨some (i, 1), sessions⟩)
      (.leave (finish key sessions e).1, ⟨none, (finish key sessions e).2⟩) := by
  cases e with
  | ok session => exact .head rfl (.single rfl)
  | error e => exact .single rfl

theorem steps_build (source : ModelSource) :
    Steps loader i (.create name version option data)
      (.build key source, ⟨some (i, 1), sessions⟩)
      (.leave (finish key sessions (load loader name version option key source)).1,
        ⟨none, (finish key sessions (load loader name version option key source)).2⟩) := by
  cases source with
  | data bin => exact .head rfl steps_built
  | path path => exact .head rfl steps_built
  | getter =>
    refine .head rfl ?_
    simp only [construct, load]
    cases loader.model_bin_getter name version with
    | ok bin => exact .head rfl steps_built
    | error e => exact .single rfl

theorem steps_perform (call : Call) :
    Steps loader i call (.enter, ⟨none, sessions⟩)
      (.leave (perform loader call sessions).1, ⟨none, (perform loader call sessions).2⟩) := by
  cases hk : call.key with
  | error e =>
    simp only [perform, hk]
    exact .single (by simp only [advance, hk])
  | ok key =>
    have henter : advance loader i call ⟨none, sessions⟩ .enter =
        some (.lock key, ⟨none, sessions⟩) := by simp only [advance, hk]
    refine .head henter ?_
    cases call with
    | create name version option data =>
      have hrelock : advance loader i (.create name version option data) ⟨some (i, 1), sessions⟩
          (.relock key) = some (.find key, ⟨some (i, 2), sessions⟩) := by
        simp [advance, Shared.lock]
      refine .head rfl (.head hrelock (.head rfl (.head rfl (.head rfl ?_))))
      cases hf : sessions.find key with
      | some session =>
        simp only [perform, hk, hf]
        exact .single rfl
      | none =>
        simp only [perform, hk, hf]
        exact steps_build _
    | get name version =>
      simp only [perform, hk]
      exact .head rfl (.head rfl (.single rfl))
    | remove name version =>
      refine .head rfl (.head rfl ?_)
      cases hf : sessions.find key with
      | some session =>
        simp only [perform, hk, hf]
        exact .head rfl (.single rfl)
      | none =>
        simp only [perform, hk, hf]
        exact .single rfl

end

/-- A call changes the map at the key that it touches and nowhere else. -/
theorem StoreSpec.filter {sessions sessions' : Sessions S}
    (h : StoreSpec sessions call res sessions') (p : SessionKey → Bool)
    (hp : ∀ key, touched call res = some key → p key = false) :
    (sessions'.entries.filter fun e => p e.1) = sessions.entries.filter fun e => p e.1 := by
  cases h with
  | create hk _ => exact OrderedMap.filter_emplace _ p (hp _ (by simp [touched, hk]))
  | remove hk _ => exact OrderedMap.filter_erase _ p (hp _ (by simp [touched, hk]))
  | _ => rfl

theorem StoreSpec.find_of_untouched {sessions sessions' : Sessions S}
    (h : StoreSpec sessions call res sessions') (hk : touched call res ≠ some key) :
    sessions'.find key = sessions.find key := by
  have hu : update key ⟨0, call, res⟩ = none := by
    cases hc : call.key with
    | error e => simp [update, hc]
    | ok k =>
      cases res with
      | created session => simpa [update, touched, hc] using hk
      | removed => simpa [update, touched, hc] using hk
      | _ => simp [update]
  rw [(h.find key 0).1, hu]
  rfl

theorem Cursor.afterCall_of_untouched {res : Ret S} {cursor : Cursor}
    (h : ∀ key, touched call res = some key → cursor ≠ .entry key) :
    cursor.afterCall call res = cursor := by
  rw [afterCall.eq_def]
  split
  case h_1 k key hk =>
    have hne := h key (by simp [touched, hk])
    rw [if_neg fun he => hne (by rw [he])]
  case h_2 => rfl

theorem Cursor.ahead_ofKey (sessions : Sessions S) (k : Option SessionKey) :
    (ofKey k).ahead sessions = (k.map sessions.entriesFrom).getD [] := by
  cases k <;> rfl

theorem Cursor.ahead_of_passed {sessions sessions' : Sessions S} {cursor : Cursor}
    (h : StoreSpec sessions call res sessions')
    (hp : ∀ key, touched call res = some key → cursor.passed key = true) :
    cursor.ahead sessions' = cursor.ahead sessions := by
  cases cursor with
  | entry k =>
    refine h.filter (fun key => k ≤ key) fun key hk => ?_
    simpa [passed] using hp key hk
  | stop => rfl
  | invalid => rfl

theorem StoreSpec.before {sessions sessions' : Sessions S}
    (h : StoreSpec sessions call res sessions') (ht : touched call res = some key)
    (hk : ¬ key < k) : sessions'.entriesBefore k = sessions.entriesBefore k := by
  apply h.filter (fun key => key < k)
  intro key' hk'
  obtain rfl := Option.some.inj (ht.symm.trans hk')
  simpa using hk

/-- The iterator is at an entry of the map, or at its end. -/
def Cursor.Valid (sessions : Sessions S) : Cursor → Prop
  | .entry key => sessions.find key ≠ none
  | .stop => True
  | .invalid => False

theorem Cursor.valid_ofKey {sessions : Sessions S}
    (h : ∀ key, k = some key → ∃ session, sessions.find key = some session) :
    (ofKey k).Valid sessions := by
  cases k with
  | none => trivial
  | some key =>
    obtain ⟨session, hs⟩ := h key rfl
    rw [ofKey, Valid, hs]
    exact Option.some_ne_none session

/-- How the copy stands to the maps since the request began: with the entries to come it makes one
of them, and it makes the present one unless it is stale. -/
structure Copying (s : Listed S) (copied : List (SessionKey × S)) (cursor : Cursor) : Prop where
  valid : cursor.Valid s.sessions
  was : ∃ m ∈ s.since, m.entries = copied ++ cursor.ahead s.sessions
  now : s.stale = false → s.sessions.entries = copied ++ cursor.ahead s.sessions

section
variable {s : Listed S} {copied : List (SessionKey × S)} {cursor : Cursor}

theorem Copying.list (s : Listed S) (listing : Listing S) :
    Copying ⟨s.sessions, listing, [s.sessions], false⟩ [] (.ofKey s.sessions.first) := by
  have ha : s.sessions.entries = (Cursor.ofKey s.sessions.first).ahead s.sessions := by
    rw [Cursor.ahead_ofKey]
    exact s.sessions.entriesFrom_first
  exact ⟨Cursor.valid_ofKey fun _ => s.sessions.find_first,
    ⟨s.sessions, List.mem_singleton_self _, ha⟩, fun _ => ha⟩

theorem Copying.copy (h : Copying s copied (.entry key)) (hf : s.sessions.find key = some session)
    (listing : Listing S) : Copying { s with listing := listing } (copied ++ [(key, session)])
      (.ofKey (s.sessions.next key)) := by
  obtain ⟨_, ⟨m, hm, he⟩, hs⟩ := h
  have ha : copied ++ Cursor.ahead s.sessions (.entry key) =
      copied ++ [(key, session)] ++ (Cursor.ofKey (s.sessions.next key)).ahead s.sessions := by
    rw [Cursor.ahead_ofKey, List.append_assoc, List.singleton_append]
    exact congrArg _ (s.sessions.entriesFrom_next hf)
  exact ⟨Cursor.valid_ofKey fun _ => s.sessions.find_next, ⟨m, hm, he.trans ha⟩,
    fun hn => (hs hn).trans ha⟩

theorem Copying.valid_call {sessions : Sessions S} {op : Call} (h : Copying s copied cursor)
    (hs : StoreSpec s.sessions op res sessions)
    (hne : ∀ key, touched op res = some key → cursor ≠ .entry key) : cursor.Valid sessions := by
  cases cursor with
  | entry k =>
    rw [Cursor.Valid, hs.find_of_untouched fun hk => hne k hk rfl]
    exact h.valid
  | stop => trivial
  | invalid => exact h.valid

theorem Copying.call {sessions : Sessions S} {op : Call} (h : Copying s copied cursor)
    (hs : StoreSpec s.sessions op res sessions)
    (ho : (touched op res).all (fun key =>
      cursor.passed key || (!s.stale && cursor ≠ .entry key)) = true) (listing : Listing S) :
    Copying ⟨sessions, listing, s.since ++ [sessions],
      s.stale || (touched op res).any cursor.passed⟩ copied (cursor.afterCall op res) := by
  have hne : ∀ key, touched op res = some key → cursor ≠ .entry key := by
    rintro key hk rfl
    simp [hk, Cursor.passed] at ho
  have hv := h.valid_call hs hne
  obtain ⟨_, ⟨m, hm, he⟩, hn⟩ := h
  rw [Cursor.afterCall_of_untouched hne]
  cases ht : touched op res with
  | none =>
    have hsame : sessions.entries = s.sessions.entries := by
      simpa using hs.filter (fun _ => true) (by simp [ht])
    have ha : cursor.ahead sessions = cursor.ahead s.sessions :=
      Cursor.ahead_of_passed hs (by simp [ht])
    refine ⟨hv, ⟨m, List.mem_append_left _ hm, ha ▸ he⟩, fun hst => ?_⟩
    rw [ha, hsame]
    exact hn (by simpa using hst)
  | some key =>
    by_cases hp : cursor.passed key = true
    · have ha : cursor.ahead sessions = cursor.ahead s.sessions :=
        Cursor.ahead_of_passed hs (by simpa [ht] using hp)
      exact ⟨hv, ⟨m, List.mem_append_left _ hm, ha ▸ he⟩, by simp [hp]⟩
    · have hst : s.stale = false := by
        simp [ht, hp] at ho
        exact ho.1
      cases cursor with
      | stop => exact absurd rfl hp
      | invalid => exact absurd hv id
      | entry k =>
        have hb := hs.before ht (by simpa [Cursor.passed] using hp : ¬ key < k)
        have hc : s.sessions.entriesBefore k = copied := by
          have hnow := hn hst
          rw [← s.sessions.before_append_from k] at hnow
          exact List.append_cancel_right hnow
        have hnew : sessions.entries = copied ++ sessions.entriesFrom k := by
          rw [← hc, ← hb, sessions.before_append_from]
        exact ⟨hv, ⟨sessions, by simp, hnew⟩, fun _ => hnew⟩

end

namespace Listed

def Consistent (s : Listed S) : Prop :=
  match s.listing with
  | .copying copied cursor => Copying s copied cursor
  | _ => s.Snapshot

theorem Consistent.next {s s' : Listed S} (h : s.Consistent) (hs : s.orderlyNext a = some s') :
    s'.Consistent := by
  rw [orderlyNext] at hs
  split_ifs at hs with ho
  rw [Consistent] at h
  cases a with
  | call call loader =>
    rw [Listed.next] at hs
    rw [orderly] at ho
    cases hl : s.listing with
    | copying copied cursor =>
      simp only [hl, Option.some.injEq] at hs h ho
      subst hs
      exact h.call (perform_spec loader call s.sessions) ho _
    | idle =>
      simp only [hl, Option.some.injEq] at hs
      subst hs
      simp [Consistent, Snapshot]
    | returned sessions =>
      simp only [hl, Option.some.injEq, Snapshot] at hs h
      subst hs
      simpa [Consistent, Snapshot, hl] using h
    | undefined => simp [hl, Snapshot] at h
  | list =>
    cases hl : s.listing with
    | idle =>
      simp only [Listed.next, hl, Option.some.injEq] at hs
      subst hs
      exact Copying.list s _
    | _ => simp [Listed.next, hl] at hs
  | copy =>
    cases hl : s.listing with
    | copying copied cursor =>
      simp only [hl] at h
      cases cursor with
      | entry key =>
        cases hf : s.sessions.find key with
        | some session =>
          simp only [Listed.next, hl, hf, Option.some.injEq] at hs
          subst hs
          exact h.copy hf _
        | none => exact absurd hf h.valid
      | stop =>
        simp only [Listed.next, hl, Option.some.injEq] at hs
        subst hs
        obtain ⟨m, hm, he⟩ := h.was
        exact ⟨m, hm, by rw [he]; exact (List.append_nil _).symm⟩
      | invalid => exact absurd h.valid id
    | _ => simp [Listed.next, hl] at hs

theorem Consistent.snapshot {s : Listed S} (h : s.Consistent) : s.Snapshot := by
  cases hl : s.listing with
  | copying copied cursor => simp [Snapshot, hl]
  | _ => simpa [Consistent, hl] using h

/-- As long as no call that touches a key ahead of the copy comes after one that touches a key the
copy has passed, and none removes the entry that the copy is at, the list that is returned is the
map at some time since the request began. -/
theorem list_snapshot {s : Listed S}
    (h : Reachable (fun s => s.listing = .idle)
      (fun s s' => ∃ a, orderlyNext s a = some s') s) : s.Snapshot := by
  have hc : s.Consistent := by
    refine h.invariant (fun s hi => ?_) fun s s' _ hs ⟨a, ha⟩ => hs.next ha
    simp [Consistent, Snapshot, hi]
  exact hc.snapshot

def creates (name : UInt8) (size : Nat) : ListAction Nat :=
  .call (.create [name] [0x31] (.object []) (some (List.replicate size 0))) Clients.sizes

def removes (name : UInt8) : ListAction Nat := .call (.remove [name] [0x31]) Clients.sizes

def start : Listed Nat := ⟨OrderedMap.empty, .idle, [], false⟩

theorem list_snapshot_orderly : ∃ s, exec orderlyNext start
    [creates 0x61 1, creates 0x63 2, .list, creates 0x64 3, .copy, removes 0x61, .copy, .copy, .copy]
      = some s ∧ s.Snapshot := by
  obtain ⟨s, hs⟩ : ∃ s, exec orderlyNext start [creates 0x61 1, creates 0x63 2, .list,
      creates 0x64 3, .copy, removes 0x61, .copy, .copy, .copy] = some s := ⟨_, rfl⟩
  exact ⟨s, hs, list_snapshot (Reachable.exec (.start rfl) hs)⟩

/-- Of the models `a` and `c` the first is removed when it has been copied, and `d` is created
then: the list has all three. -/
theorem list_not_snapshot : ∃ s : Listed Nat,
    Reachable (fun s => s.listing = .idle) (fun s s' => ∃ a, next s a = some s') s ∧
      ¬ s.Snapshot := by
  obtain ⟨s, hs, sessions, hl, hv, hm⟩ : ∃ s, exec next start [creates 0x61 1, creates 0x63 2,
      .list, .copy, removes 0x61, creates 0x64 3, .copy, .copy, .copy] = some s ∧
      ∃ sessions, s.listing = .returned sessions ∧ sessions.map Prod.snd = [1, 2, 3] ∧
        s.since.map (fun m => m.entries.map Prod.snd) = [[1, 2], [2], [2, 3]] :=
    ⟨_, rfl, _, rfl, rfl, rfl⟩
  refine ⟨s, Reachable.exec (.start rfl) hs, ?_⟩
  rw [Snapshot, hl]
  rintro ⟨m, hmem, rfl⟩
  have hin := List.mem_map_of_mem (f := fun m : Sessions Nat => m.entries.map Prod.snd) hmem
  rw [hm, hv] at hin
  simp at hin

end Listed

end OnnxruntimeServer
