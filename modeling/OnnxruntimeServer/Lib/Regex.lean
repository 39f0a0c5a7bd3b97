import Mathlib

namespace OnnxruntimeServer
set_option autoImplicit true
namespace Regex

/-- Regular expressions whose repetitions are all of single characters, and greedy. -/
inductive Pattern (α : Type) where
  | one (p : α → Bool)
  | many (p : α → Bool)
  | seq (r q : Pattern α)
  | opt (r : Pattern α)
  | group (r : Pattern α)

/-- The text of a match and those of its groups; a group that took no part has none. -/
structure Match (α : Type) where
  text : List α
  groups : List (Option (List α))

/-- The text of the `i`-th group, which is empty if the group took no part. -/
def Match.str (m : Match α) (i : Nat) : List α := (m.groups.getD (i - 1) none).getD []

def Match.append (m n : Match α) : Match α := ⟨m.text ++ n.text, m.groups ++ n.groups⟩

/-- What a greedy repetition can take, the most first, and what it leaves. -/
def runs (p : α → Bool) : List α → List (List α × List α)
  | [] => [([], [])]
  | a :: s =>
    if p a then (runs p s).map (fun x => (a :: x.1, x.2)) ++ [([], a :: s)] else [([], a :: s)]

namespace Pattern

/-- A first character and then any number of others. -/
def word (p₀ p : α → Bool) : Pattern α := seq (one p₀) (many p)

def plus (p : α → Bool) : Pattern α := word p p

def groupCount : Pattern α → Nat
  | one _ | many _ => 0
  | seq r q => r.groupCount + q.groupCount
  | opt r => r.groupCount
  | group r => r.groupCount + 1

/-- The matches at the front of a text, with what each leaves, in the order in which a backtracking
matcher comes to them. -/
def run : Pattern α → List α → List (Match α × List α)
  | one _, [] => []
  | one p, a :: s => if p a then [(⟨[a], []⟩, s)] else []
  | many p, s => (runs p s).map fun x => (⟨x.1, []⟩, x.2)
  | seq r q, s => (r.run s).flatMap fun x => (q.run x.2).map fun y => (x.1.append y.1, y.2)
  | opt r, s => r.run s ++ [(⟨[], List.replicate r.groupCount none⟩, s)]
  | group r, s => (r.run s).map fun x => (⟨x.1.text, some x.1.text :: x.1.groups⟩, x.2)

/-- The match at the front of a text. -/
def first (r : Pattern α) (s : List α) : Option (Match α × List α) := (r.run s).head?

def full (r : Pattern α) (s : List α) : Option (Match α) :=
  ((r.run s).find? fun x => x.2.isEmpty).map Prod.fst

/-- The leftmost match, and what follows it. -/
def search (r : Pattern α) : List α → Option (Match α × List α)
  | [] => r.first []
  | a :: s => (r.first (a :: s)).or (r.search s)

def scanFrom (r : Pattern α) : Nat → List α → List (Match α) × List α
  | 0, s => ([], s)
  | fuel + 1, s =>
    match r.search s with
    | none => ([], s)
    | some (m, rest) => (m :: (r.scanFrom fuel rest).1, (r.scanFrom fuel rest).2)

/-- One match after the other, each searched in what follows the last, and what is left at the end.
A match is not empty, so as many rounds are enough as there are characters. -/
def scan (r : Pattern α) (s : List α) : List (Match α) × List α := r.scanFrom s.length s

/-- The last match, when they are searched one after the other, reaches the end. -/
inductive EndsInMatch (r : Pattern α) : List α → Prop where
  | last : r.search s = some (m, []) → EndsInMatch r s
  | more : r.search s = some (m, rest) → EndsInMatch r rest → EndsInMatch r s

/-- No match is empty. -/
def Consumes (r : Pattern α) : Prop := ∀ s, ∀ x ∈ r.run s, x.1.text ≠ []

/-- Only the first of the matches at the front of a text can reach its end. -/
def Greedy (r : Pattern α) : Prop := ∀ s x xs, r.run s = x :: xs → ∀ y ∈ xs, y.2 ≠ []

/-- Behind no end of `s` does a match change because `u` follows. -/
def Local (r : Pattern α) (u s : List α) : Prop :=
  ∀ t, t <:+ s → r.run (t ++ u) = (r.run t).map fun x => (x.1, x.2 ++ u)

end Pattern

theorem runs_eq (p : α → Bool) (s : List α) :
    ∃ rest, runs p s = (s.takeWhile p, s.dropWhile p) :: rest ∧
      ∀ x ∈ rest, ∃ a t, p a = true ∧ x.2 = a :: t := by
  induction s with
  | nil => exact ⟨[], rfl, by simp⟩
  | cons a s ih =>
    obtain ⟨rest, hruns, hrest⟩ := ih
    rw [runs]
    by_cases ha : p a = true
    · rw [if_pos ha, hruns, List.takeWhile_cons_of_pos ha, List.dropWhile_cons_of_pos ha]
      refine ⟨_, rfl, ?_⟩
      intro x hx
      rcases List.mem_append.1 hx with hx | hx
      · obtain ⟨y, hy, rfl⟩ := List.mem_map.1 hx
        exact hrest y hy
      · obtain rfl := List.mem_singleton.1 hx
        exact ⟨a, s, ha, rfl⟩
    · rw [if_neg ha, List.takeWhile_cons_of_neg ha, List.dropWhile_cons_of_neg ha]
      exact ⟨[], rfl, by simp⟩

theorem stop_of_cons {p : α → Bool} (ha : p a = true) (hs : ∃ c ∈ a :: s, p c = false) :
    ∃ c ∈ s, p c = false := by
  obtain ⟨c, hc, hp⟩ := hs
  rcases List.mem_cons.1 hc with rfl | hc
  · rw [ha] at hp
    cases hp
  · exact ⟨c, hc, hp⟩

theorem exists_dropWhile_eq {p : α → Bool} {s : List α} (hs : ∃ c ∈ s, p c = false) :
    ∃ c t, s.dropWhile p = c :: t := by
  apply List.exists_cons_of_ne_nil
  intro hnil
  obtain ⟨c, hc, hp⟩ := hs
  rw [List.dropWhile_eq_nil_iff.1 hnil c hc] at hp
  cases hp

theorem span_append_of_stop {p : α → Bool} {s : List α} (hs : ∃ c ∈ s, p c = false) (u : List α) :
    (s ++ u).takeWhile p = s.takeWhile p ∧ (s ++ u).dropWhile p = s.dropWhile p ++ u := by
  induction s with
  | nil =>
    obtain ⟨c, hc, _⟩ := hs
    cases hc
  | cons a s ih =>
    by_cases ha : p a = true
    · simp [ha, ih (stop_of_cons ha hs)]
    · simp [ha]

theorem runs_all {p : α → Bool} (h : x ∈ runs p s) : ∀ b ∈ x.1, p b = true := by
  induction s generalizing x with
  | nil =>
    obtain rfl := List.mem_singleton.1 h
    simp
  | cons a s ih =>
    rw [runs] at h
    split at h
    · rename_i ha
      rcases List.mem_append.1 h with h | h
      · obtain ⟨y, hy, rfl⟩ := List.mem_map.1 h
        intro b hb
        rcases List.mem_cons.1 hb with rfl | hb
        · exact ha
        · exact ih hy b hb
      · obtain rfl := List.mem_singleton.1 h
        simp
    · obtain rfl := List.mem_singleton.1 h
      simp

theorem span_word {p : α → Bool} {w : List α} (hw : ∀ a ∈ w, p a = true)
    (hs : ∀ a ∈ s.head?, p a = false) :
    (w ++ s).takeWhile p = w ∧ (w ++ s).dropWhile p = s := by
  rw [List.takeWhile_append_of_pos hw, List.dropWhile_append_of_pos hw]
  cases s with
  | nil => simp
  | cons a s => simp [hs a rfl]

theorem mem_runs (h : x ∈ runs p s) : x.1 ++ x.2 = s := by
  induction s generalizing x with
  | nil =>
    obtain rfl := List.mem_singleton.1 h
    rfl
  | cons a s ih =>
    rw [runs] at h
    split at h
    · rcases List.mem_append.1 h with h | h
      · obtain ⟨y, hy, rfl⟩ := List.mem_map.1 h
        exact congrArg (a :: ·) (ih hy)
      · obtain rfl := List.mem_singleton.1 h
        rfl
    · obtain rfl := List.mem_singleton.1 h
      rfl

namespace Pattern

variable {r q : Pattern α} {p p₀ : α → Bool} {s t u : List α}

theorem mem_run (h : x ∈ r.run s) : x.1.text ++ x.2 = s := by
  induction r generalizing s x with
  | one p =>
    cases s with
    | nil => cases h
    | cons a s =>
      rw [run] at h
      split at h
      · obtain rfl := List.mem_singleton.1 h
        rfl
      · cases h
  | many p =>
    obtain ⟨y, hy, rfl⟩ := List.mem_map.1 h
    exact mem_runs hy
  | seq r q ihr ihq =>
    obtain ⟨y, hy, h⟩ := List.mem_flatMap.1 h
    obtain ⟨z, hz, rfl⟩ := List.mem_map.1 h
    rw [← ihr hy, ← ihq hz]
    exact List.append_assoc ..
  | opt r ih =>
    rcases List.mem_append.1 h with h | h
    · exact ih h
    · obtain rfl := List.mem_singleton.1 h
      rfl
  | group r ih =>
    obtain ⟨y, hy, rfl⟩ := List.mem_map.1 h
    exact ih (x := y) hy

theorem mem_run_seq :
    x ∈ (seq r q).run s ↔ ∃ y ∈ r.run s, ∃ z ∈ q.run y.2, x = (y.1.append z.1, z.2) := by
  simp only [run, List.mem_flatMap, List.mem_map, eq_comm]

theorem mem_run_group :
    x ∈ (group r).run s ↔
      ∃ y ∈ r.run s, x = (⟨y.1.text, some y.1.text :: y.1.groups⟩, y.2) := by
  simp only [run, List.mem_map, eq_comm]

theorem suffix_of_mem_run (h : x ∈ r.run s) : x.2 <:+ s := ⟨x.1.text, mem_run h⟩

theorem search_mem (h : r.search s = some x) : ∃ t, t <:+ s ∧ x ∈ r.run t := by
  induction s with
  | nil => exact ⟨[], List.suffix_rfl, List.mem_of_head? h⟩
  | cons a s ih =>
    rw [search] at h
    cases hf : r.first (a :: s) with
    | some y =>
      rw [hf] at h
      obtain rfl := Option.some.inj h
      exact ⟨_, List.suffix_rfl, List.mem_of_head? hf⟩
    | none =>
      rw [hf] at h
      obtain ⟨t, ht, hx⟩ := ih h
      exact ⟨t, ht.trans (List.suffix_cons a s), hx⟩

theorem mem_scan (h : m ∈ (r.scan s).1) : ∃ t x, t <:+ s ∧ x ∈ r.run t ∧ x.1 = m := by
  rw [scan] at h
  generalize s.length = fuel at h
  induction fuel generalizing s with
  | zero => cases h
  | succ fuel ih =>
    rw [scanFrom] at h
    cases hs : r.search s with
    | none =>
      rw [hs] at h
      cases h
    | some x =>
      obtain ⟨t, ht, hx⟩ := search_mem hs
      rw [hs] at h
      rcases List.mem_cons.1 h with rfl | h
      · exact ⟨t, x, ht, hx, rfl⟩
      · obtain ⟨t', x', ht', hx'⟩ := ih h
        exact ⟨t', x', ht'.trans ((suffix_of_mem_run hx).trans ht), hx'⟩

theorem mem_run_word (h : x ∈ (word p₀ p).run s) :
    ∃ a t, x.1 = ⟨a :: t, []⟩ ∧ p₀ a = true ∧ ∀ b ∈ t, p b = true := by
  cases s with
  | nil => cases h
  | cons a s =>
    by_cases ha : p₀ a = true
    · simp only [word, run, ha, if_true, List.flatMap_cons, List.flatMap_nil, List.append_nil,
        List.map_map, List.mem_map] at h
      obtain ⟨y, hy, rfl⟩ := h
      refine ⟨a, y.1, rfl, ha, ?_⟩
      exact fun b hb => runs_all hy b hb
    · simp [word, run, ha] at h

theorem full_isSome : (r.full s).isSome = true ↔ ∃ x ∈ r.run s, x.2 = [] := by
  simp [full]

theorem word_reaches_end :
    (∃ x ∈ (word p₀ p).run s, x.2 = []) ↔ ∃ a t, s = a :: t ∧ p₀ a = true ∧ ∀ b ∈ t, p b = true := by
  constructor
  · rintro ⟨x, hx, hnil⟩
    obtain ⟨a, t, htext, ha, ht⟩ := mem_run_word hx
    have hs := mem_run hx
    rw [htext, hnil, List.append_nil] at hs
    exact ⟨a, t, hs.symm, ha, ht⟩
  · rintro ⟨a, t, rfl, ha, ht⟩
    obtain ⟨rest, hruns, _⟩ := runs_eq p t
    have hall := span_word (s := []) ht (by simp)
    rw [List.append_nil] at hall
    refine ⟨(⟨a :: t, []⟩, []), ?_, rfl⟩
    simp [run, word, ha, hruns, hall, Match.append]

theorem search_of_first (h : r.first s = some x) : r.search s = some x := by
  cases s with
  | nil => exact h
  | cons a s => rw [search, h]; rfl

theorem length_search_lt (hr : r.Consumes) (h : r.search s = some (m, rest)) :
    rest.length < s.length := by
  obtain ⟨t, ht, hx⟩ := search_mem h
  have htext := List.length_pos_of_ne_nil (hr t _ hx)
  have hlen := congrArg List.length (mem_run hx)
  rw [List.length_append] at hlen
  have hle := ht.length_le
  dsimp only at hlen htext
  omega

theorem scanFrom_fuel (hr : r.Consumes) (hf : s.length ≤ fuel) :
    r.scanFrom fuel s = r.scan s := by
  have key : ∀ n fuel' (s : List α), s.length ≤ n → n ≤ fuel' →
      r.scanFrom fuel' s = r.scanFrom n s := by
    intro n
    induction n with
    | zero =>
      intro fuel' s hs _
      obtain rfl := List.length_eq_zero_iff.1 (Nat.le_zero.1 hs)
      cases fuel' with
      | zero => rfl
      | succ fuel' =>
        rw [scanFrom, scanFrom]
        cases hsearch : r.search ([] : List α) with
        | none => rfl
        | some x => exact absurd (length_search_lt hr hsearch) (Nat.not_lt_zero _)
    | succ n ih =>
      intro fuel' s hs hle
      obtain ⟨fuel', rfl⟩ : ∃ k, fuel' = k + 1 := ⟨fuel' - 1, by omega⟩
      rw [scanFrom, scanFrom]
      cases hsearch : r.search s with
      | none => rfl
      | some x =>
        have hlt := length_search_lt hr hsearch
        dsimp only
        rw [ih fuel' x.2 (by omega) (by omega)]
  exact key _ _ s le_rfl hf

theorem scan_of_none (h : r.search s = none) : r.scan s = ([], s) := by
  rw [scan]
  cases s.length with
  | zero => rfl
  | succ n => rw [scanFrom, h]

theorem scan_of_some (hr : r.Consumes) (h : r.search s = some (m, rest)) :
    r.scan s = (m :: (r.scan rest).1, (r.scan rest).2) := by
  have hlt := length_search_lt hr h
  obtain ⟨n, hn⟩ : ∃ n, s.length = n + 1 := ⟨s.length - 1, by omega⟩
  rw [scan, hn, scanFrom, h]
  dsimp only
  rw [scanFrom_fuel hr (by omega)]

theorem scan_of_nil (h : (r.scan s).1 = []) : (r.scan s).2 = s := by
  cases hs : r.search s with
  | none => rw [scan_of_none hs]
  | some x =>
    cases s with
    | nil => rfl
    | cons a s => simp [scan, scanFrom, hs] at h

/-- The scan leaves nothing of a text that ends in a match, and of no other that is not empty. -/
theorem endsInMatch_iff (hr : r.Consumes) : r.EndsInMatch s ↔ s ≠ [] ∧ (r.scan s).2 = [] := by
  constructor
  · intro h
    induction h with
    | last h =>
      have hlt := length_search_lt hr h
      rw [scan_of_some hr h]
      exact ⟨List.ne_nil_of_length_pos (by omega), rfl⟩
    | more h _ ih =>
      have hlt := length_search_lt hr h
      rw [scan_of_some hr h]
      exact ⟨List.ne_nil_of_length_pos (by omega), ih.2⟩
  · rintro ⟨hne, h⟩
    induction hn : s.length using Nat.strong_induction_on generalizing s with
    | _ n ih =>
      cases hs : r.search s with
      | none =>
        rw [scan_of_none hs] at h
        exact absurd h hne
      | some x =>
        obtain ⟨m, rest⟩ := x
        rw [scan_of_some hr hs] at h
        by_cases hrest : rest = []
        · subst hrest
          exact .last hs
        · exact .more hs (ih rest.length (hn ▸ length_search_lt hr hs) hrest h rfl)

theorem run_one_seq (a : α) (s : List α) : (seq (one p) q).run (a :: s) =
    if p a = true then (q.run s).map fun y => (⟨a :: y.1.text, y.1.groups⟩, y.2) else [] := by
  by_cases ha : p a = true
  · simp [run, ha, Match.append]
  · simp [run, ha]

theorem run_many_seq (hq : ∀ a t, p a = true → q.run (a :: t) = []) (s : List α) :
    (seq (many p) q).run s = (q.run (s.dropWhile p)).map fun y =>
      (⟨s.takeWhile p ++ y.1.text, y.1.groups⟩, y.2) := by
  obtain ⟨rest, hruns, hrest⟩ := runs_eq p s
  have hnil : rest.flatMap (fun x => (q.run x.2).map fun y =>
      ((⟨x.1, []⟩ : Match α).append y.1, y.2)) = [] := by
    apply List.flatMap_eq_nil_iff.2
    intro x hx
    obtain ⟨a, t, ha, hx⟩ := hrest x hx
    rw [hx, hq a t ha]
    rfl
  simp only [run, List.flatMap_map, hruns, List.flatMap_cons, hnil, List.append_nil]
  rfl

theorem run_group_word_seq (hq : ∀ a t, p a = true → q.run (a :: t) = []) (a : α) (s : List α) :
    (seq (group (word p₀ p)) q).run (a :: s) =
      if p₀ a = true then (q.run (s.dropWhile p)).map fun y =>
        (⟨(a :: s.takeWhile p) ++ y.1.text, some (a :: s.takeWhile p) :: y.1.groups⟩, y.2)
      else [] := by
  obtain ⟨rest, hruns, hrest⟩ := runs_eq p s
  have hnil : rest.flatMap (fun x => (q.run x.2).map fun y =>
      ((⟨a :: x.1, [some (a :: x.1)]⟩ : Match α).append y.1, y.2)) = [] := by
    apply List.flatMap_eq_nil_iff.2
    intro x hx
    obtain ⟨b, t, hb, hx⟩ := hrest x hx
    rw [hx, hq b t hb]
    rfl
  by_cases ha : p₀ a = true
  · rw [if_pos ha]
    simp only [run, word, ha, if_true, List.flatMap_cons, List.flatMap_nil, List.append_nil,
      List.map_map, List.flatMap_map, hruns, Function.comp_def, Match.append,
      List.singleton_append] at hnil ⊢
    rw [hnil, List.append_nil]
  · simp [run, word, ha]

theorem first_group_word_seq (p₀ p : α → Bool) (hq : ∀ t, q.run t ≠ []) (a : α) (s : List α) :
    (seq (group (word p₀ p)) q).first (a :: s) =
      if p₀ a = true then (q.first (s.dropWhile p)).map fun y =>
        (⟨(a :: s.takeWhile p) ++ y.1.text, some (a :: s.takeWhile p) :: y.1.groups⟩, y.2)
      else none := by
  obtain ⟨rest, hruns, _⟩ := runs_eq p s
  by_cases ha : p₀ a = true
  · rw [if_pos ha, first, first]
    simp only [run, word, ha, if_true, List.flatMap_cons, List.flatMap_nil, List.append_nil,
      List.map_map, List.flatMap_map, hruns, Function.comp_def, List.map_cons]
    cases hd : q.run (s.dropWhile p) with
    | nil => exact absurd hd (hq _)
    | cons y ys => simp [Match.append]
  · simp [first, run, word, ha]

theorem first_group_word (p₀ p : α → Bool) (a : α) (s : List α) :
    (group (word p₀ p)).first (a :: s) =
      if p₀ a = true then
        some (⟨a :: s.takeWhile p, [some (a :: s.takeWhile p)]⟩, s.dropWhile p)
      else none := by
  obtain ⟨rest, hruns, _⟩ := runs_eq p s
  by_cases ha : p₀ a = true
  · simp [first, run, word, ha, hruns, Match.append]
  · simp [first, run, word, ha]

theorem runs_append (hu : ∀ a ∈ u.head?, p a = false) (s : List α) :
    runs p (s ++ u) = (runs p s).map fun x => (x.1, x.2 ++ u) := by
  induction s with
  | nil =>
    cases u with
    | nil => rfl
    | cons a u => simp [runs, hu a rfl]
  | cons a s ih =>
    rw [List.cons_append, runs, runs, ih]
    split <;> simp [Function.comp_def]

theorem local_one (hu : ∀ a ∈ u.head?, p a = false) (s : List α) : (one p).Local u s := by
  intro t _
  cases t with
  | nil =>
    cases u with
    | nil => rfl
    | cons a u => simp [run, hu a rfl]
  | cons a t =>
    rw [List.cons_append, run, run]
    split <;> rfl

theorem local_many (hu : ∀ a ∈ u.head?, p a = false) (s : List α) : (many p).Local u s := by
  intro t _
  simp [run, runs_append hu, Function.comp_def]

theorem Local.seq (hr : r.Local u s) (hq : q.Local u s) : (seq r q).Local u s := by
  intro t ht
  rw [run, run, hr t ht, List.flatMap_map, List.map_flatMap]
  apply List.flatMap_congr
  intro x hx
  rw [hq x.2 ((suffix_of_mem_run hx).trans ht), List.map_map, List.map_map]
  rfl

theorem Local.opt (hr : r.Local u s) : (opt r).Local u s := by
  intro t ht
  rw [run, run, hr t ht, List.map_append]
  rfl

theorem Local.group (hr : r.Local u s) : (group r).Local u s := by
  intro t ht
  rw [run, run, hr t ht, List.map_map, List.map_map]
  rfl

theorem local_word (h₀ : ∀ a ∈ u.head?, p₀ a = false) (h : ∀ a ∈ u.head?, p a = false)
    (s : List α) : (word p₀ p).Local u s :=
  (local_one h₀ s).seq (local_many h s)

theorem consumes_one (p : α → Bool) : (one p).Consumes := by
  intro s x hx
  cases s with
  | nil => cases hx
  | cons a s =>
    rw [run] at hx
    split at hx
    · obtain rfl := List.mem_singleton.1 hx
      exact List.cons_ne_nil _ _
    · cases hx

theorem Consumes.seq (hr : r.Consumes) (q : Pattern α) : (seq r q).Consumes := by
  intro s x hx
  obtain ⟨y, hy, hx⟩ := List.mem_flatMap.1 hx
  obtain ⟨z, _, rfl⟩ := List.mem_map.1 hx
  exact List.append_ne_nil_of_left_ne_nil (hr s y hy) _

theorem Consumes.group (hr : r.Consumes) : (group r).Consumes := by
  intro s x hx
  obtain ⟨y, hy, rfl⟩ := List.mem_map.1 hx
  exact hr s y hy

theorem run_plus_one_append (hq : ∀ a, p a = true → p₀ a = false) (hs : ∃ c ∈ s, p c = false)
    (u : List α) : (seq (group (plus p)) (one p₀)).run (s ++ u) =
      ((seq (group (plus p)) (one p₀)).run s).map fun x => (x.1, x.2 ++ u) := by
  have hstart : ∀ a t, p a = true → (one p₀).run (a :: t) = [] := by
    intro a t ha
    rw [run, hq a ha]
    rfl
  cases s with
  | nil =>
    obtain ⟨c, hc, _⟩ := hs
    cases hc
  | cons a s =>
    rw [List.cons_append, plus, run_group_word_seq hstart, run_group_word_seq hstart]
    by_cases ha : p a = true
    · obtain ⟨c, t, hdrop⟩ := exists_dropWhile_eq (stop_of_cons ha hs)
      obtain ⟨htake, hdrop'⟩ := span_append_of_stop (stop_of_cons ha hs) u
      rw [if_pos ha, if_pos ha, htake, hdrop', hdrop, List.cons_append, run, run]
      split <;> rfl
    · rw [if_neg ha, if_neg ha]
      rfl

theorem dropWhile_append_eq (p : α → Bool) (s u : List α) : (s ++ u).dropWhile p =
    if s.dropWhile p = [] then u.dropWhile p else s.dropWhile p ++ u := by
  simp [List.dropWhile_append, List.isEmpty_iff]

theorem Local.many_seq (hq : ∀ a t, p a = true → q.run (a :: t) = []) (h : q.Local u s)
    (hnil : q.run [] = []) (hu : q.run (u.dropWhile p) = []) :
    (Pattern.seq (many p) q).Local u s := by
  intro t ht
  rw [run_many_seq hq, run_many_seq hq, dropWhile_append_eq]
  by_cases hd : t.dropWhile p = []
  · rw [if_pos hd, hd, hu, hnil]
    rfl
  · have hstop : ∃ c ∈ t, p c = false := by
      by_contra hn
      apply hd
      rw [List.dropWhile_eq_nil_iff]
      intro c hc
      by_contra hp
      exact hn ⟨c, hc, by simpa using hp⟩
    rw [if_neg hd, h _ ((List.dropWhile_suffix p).trans ht), (span_append_of_stop hstop u).1]
    simp [Function.comp_def]

theorem Greedy.one_seq (hq : q.Greedy) (p : α → Bool) : (seq (one p) q).Greedy := by
  intro s x xs h y hy
  cases s with
  | nil => cases h
  | cons a s =>
    rw [run_one_seq] at h
    split at h
    · obtain ⟨z, zs, hz, _, rfl⟩ := List.map_eq_cons_iff.1 h
      obtain ⟨w, hw, rfl⟩ := List.mem_map.1 hy
      exact hq s z zs hz w hw
    · cases h

theorem Greedy.many_seq (hs : ∀ a t, p a = true → q.run (a :: t) = []) (hq : q.Greedy) :
    (seq (many p) q).Greedy := by
  intro s x xs h y hy
  rw [run_many_seq hs] at h
  obtain ⟨z, zs, hz, _, rfl⟩ := List.map_eq_cons_iff.1 h
  obtain ⟨w, hw, rfl⟩ := List.mem_map.1 hy
  exact hq _ z zs hz w hw

theorem Greedy.group_word_seq (hs : ∀ a t, p a = true → q.run (a :: t) = []) (hq : q.Greedy)
    (p₀ : α → Bool) : (seq (group (word p₀ p)) q).Greedy := by
  intro s x xs h y hy
  cases s with
  | nil => cases h
  | cons a s =>
    rw [run_group_word_seq hs] at h
    split at h
    · obtain ⟨z, zs, hz, _, rfl⟩ := List.map_eq_cons_iff.1 h
      obtain ⟨w, hw, rfl⟩ := List.mem_map.1 hy
      exact hq _ z zs hz w hw
    · cases h

theorem greedy_group_word (p₀ p : α → Bool) : (group (word p₀ p)).Greedy := by
  intro s x xs h y hy
  cases s with
  | nil => cases h
  | cons a s =>
    by_cases ha : p₀ a = true
    · obtain ⟨rest, hruns, hrest⟩ := runs_eq p s
      simp only [run, word, ha, if_true, List.flatMap_cons, List.flatMap_nil, List.append_nil,
        List.map_map, hruns, List.map_cons, List.cons.injEq] at h
      obtain ⟨_, rfl⟩ := h
      obtain ⟨z, hz, rfl⟩ := List.mem_map.1 hy
      obtain ⟨b, t, _, hb⟩ := hrest z hz
      simp [hb]
    · simp [run, word, ha] at h

theorem Greedy.full_eq_some (hr : r.Greedy) : r.full s = some m ↔ r.first s = some (m, []) := by
  rw [full, first]
  cases hrun : r.run s with
  | nil => simp
  | cons x xs =>
    by_cases hx : x.2 = []
    · obtain ⟨n, rest⟩ := x
      dsimp only at hx
      subst hx
      simp
    · have hnone : xs.find? (fun y => y.2.isEmpty) = none := by
        rw [List.find?_eq_none]
        intro y hy
        simpa using hr s x xs hrun y hy
      obtain ⟨n, rest⟩ := x
      rw [List.find?_cons_of_neg (by simpa using hx), hnone]
      simp only [List.head?_cons, Option.map_none, Option.some.injEq, Prod.mk.injEq]
      constructor
      · intro h
        cases h
      · rintro ⟨_, rfl⟩
        exact absurd rfl hx

theorem Local.of_suffix (h : r.Local u s) (ht : t <:+ s) : r.Local u t :=
  fun _ h' => h _ (h'.trans ht)

theorem Local.first (h : r.Local u s) :
    r.first (s ++ u) = (r.first s).map fun x => (x.1, x.2 ++ u) := by
  rw [Pattern.first, Pattern.first, h s List.suffix_rfl, List.head?_map]

/-- Where matches are local to what a separator ends, the search goes on behind it. -/
theorem Local.search (hr : r.Consumes) (h : r.Local (sep :: u) s) :
    r.search (s ++ sep :: u) =
      ((r.search s).map fun x => (x.1, x.2 ++ sep :: u)).or (r.search u) := by
  induction s with
  | nil =>
    have hnil : r.first [] = none := by
      cases hf : r.run [] with
      | nil => rw [Pattern.first, hf]; rfl
      | cons x xs =>
        have hx : x ∈ r.run [] := by rw [hf]; exact List.mem_cons_self
        exact absurd (List.append_eq_nil_iff.1 (mem_run hx)).1 (hr _ x hx)
    have hfirst := h.first
    rw [List.nil_append, hnil] at hfirst
    rw [List.nil_append, Pattern.search, Pattern.search, hfirst, hnil]
  | cons a s ih =>
    have hfirst := h.first
    rw [List.cons_append] at hfirst ⊢
    rw [Pattern.search, Pattern.search, hfirst, ih (h.of_suffix (List.suffix_cons a s))]
    cases r.first (a :: s) <;> rfl

/-- A scan over a separator is the scan of either side, except that the right side has to hold a
match for the rest of the left one to be passed over. -/
theorem scan_append_sep (hr : r.Consumes) (h : r.Local (sep :: u) s) :
    r.scan (s ++ sep :: u) = ((r.scan s).1 ++ (r.scan u).1,
      if (r.scan u).1 = [] then (r.scan s).2 ++ sep :: u else (r.scan u).2) := by
  induction hn : s.length using Nat.strong_induction_on generalizing s with
  | _ n ih =>
    have hsearch := h.search hr
    cases hs : r.search s with
    | none =>
      rw [hs, Option.map_none, Option.none_or] at hsearch
      rw [scan_of_none hs]
      cases hu : r.search u with
      | none =>
        rw [hu] at hsearch
        rw [scan_of_none hsearch, scan_of_none hu]
        rfl
      | some x =>
        obtain ⟨m, rest⟩ := x
        rw [hu] at hsearch
        rw [scan_of_some hr hsearch, scan_of_some hr hu]
        rfl
    | some x =>
      obtain ⟨m, rest⟩ := x
      rw [hs, Option.map_some, Option.some_or] at hsearch
      obtain ⟨t, ht, hx⟩ := search_mem hs
      have hsuffix : rest <:+ s := (suffix_of_mem_run hx).trans ht
      have hrest := ih rest.length (hn ▸ length_search_lt hr hs) (h.of_suffix hsuffix) rfl
      rw [scan_of_some hr hsearch, scan_of_some hr hs, hrest]
      rfl

theorem scan_skip (hr : r.Consumes) (h : ∀ a ∈ s, ∀ t, r.first (a :: t) = none) (t : List α) :
    (r.scan (s ++ t)).1 = (r.scan t).1 := by
  have hsearch : r.search (s ++ t) = r.search t := by
    induction s with
    | nil => rfl
    | cons a s ih =>
      rw [List.cons_append, search, h a List.mem_cons_self,
        ih fun b hb => h b (List.mem_cons_of_mem a hb)]
      rfl
  cases hs : r.search t with
  | none => rw [scan_of_none (hsearch.trans hs), scan_of_none hs]
  | some x => rw [scan_of_some hr (hsearch.trans hs), scan_of_some hr hs]

/-- What lies between separators that no match goes over is scanned on its own. -/
theorem scan_intercalate (hr : r.Consumes) (hsep : ∀ s u, r.Local (sep :: u) s)
    (pieces : List (List α)) :
    (r.scan ([sep].intercalate pieces)).1 = pieces.flatMap fun s => (r.scan s).1 := by
  induction pieces with
  | nil => rfl
  | cons s pieces ih =>
    cases pieces with
    | nil => simp
    | cons t pieces =>
      rw [List.intercalate_cons_cons, List.append_assoc, List.singleton_append,
        scan_append_sep hr (hsep s _), ih]
      rfl

end Pattern
end Regex
end OnnxruntimeServer
