import Mathlib

set_option autoImplicit true

/-- A finite map kept as a list of entries in strictly increasing key order. -/
structure OrderedMap (κ ν : Type) [LinearOrder κ] where
  entries : List (κ × ν)
  sorted : entries.Pairwise fun a b => a.1 < b.1

namespace OrderedMap

/-- Insertion in front of the first entry with a larger key; a present key is kept. -/
def insertEntry [LinearOrder κ] (k : κ) (v : ν) : List (κ × ν) → List (κ × ν)
  | [] => [(k, v)]
  | e :: es =>
    if k < e.1 then (k, v) :: e :: es
    else if k = e.1 then e :: es
    else e :: insertEntry k v es

variable [LinearOrder κ]

theorem mem_insertEntry {es : List (κ × ν)} (h : e ∈ insertEntry k v es) :
    e = (k, v) ∨ e ∈ es := by
  induction es with
  | nil => simpa [insertEntry] using h
  | cons x es ih =>
    rw [insertEntry] at h
    split_ifs at h with h₁ h₂
    · simpa using h
    · exact .inr h
    · rcases List.mem_cons.1 h with he | he
      · exact .inr (he ▸ List.mem_cons_self)
      · rcases ih he with he | he
        · exact .inl he
        · exact .inr (List.mem_cons_of_mem _ he)

theorem sorted_insertEntry {es : List (κ × ν)} (h : es.Pairwise fun a b => a.1 < b.1) :
    (insertEntry k v es).Pairwise fun a b => a.1 < b.1 := by
  induction h with
  | nil => simp [insertEntry]
  | @cons x es hx hes ih =>
    rw [insertEntry]
    split_ifs with h₁ h₂
    · refine .cons ?_ (.cons hx hes)
      intro e he
      rcases List.mem_cons.1 he with rfl | he
      · exact h₁
      · exact h₁.trans (hx e he)
    · exact .cons hx hes
    · refine .cons ?_ ih
      intro e he
      rcases mem_insertEntry he with rfl | he
      · exact lt_of_le_of_ne (not_lt.1 h₁) (Ne.symm h₂)
      · exact hx e he

def empty : OrderedMap κ ν := ⟨[], .nil⟩

def find (m : OrderedMap κ ν) (k : κ) : Option ν :=
  (m.entries.find? fun e => e.1 = k).map Prod.snd

/-- Inserts a key that is absent and leaves the map alone otherwise. -/
def emplace (m : OrderedMap κ ν) (k : κ) (v : ν) : OrderedMap κ ν :=
  ⟨insertEntry k v m.entries, sorted_insertEntry m.sorted⟩

def erase (m : OrderedMap κ ν) (k : κ) : OrderedMap κ ν :=
  ⟨m.entries.filter fun e => e.1 ≠ k, m.sorted.filter _⟩

def modify (m : OrderedMap κ ν) (k : κ) (f : ν → ν) : OrderedMap κ ν :=
  ⟨m.entries.map fun e => (e.1, if e.1 = k then f e.2 else e.2), m.sorted.map _ fun _ _ h => h⟩

def first (m : OrderedMap κ ν) : Option κ := m.entries.head?.map Prod.fst

def next (m : OrderedMap κ ν) (k : κ) : Option κ :=
  (m.entries.find? fun e => k < e.1).map Prod.fst

theorem mem_iff_find (m : OrderedMap κ ν) : (k, v) ∈ m.entries ↔ m.find k = some v := by
  constructor
  · intro h
    obtain ⟨l, r, hl⟩ := List.append_of_mem h
    have hs := m.sorted
    rw [hl, List.pairwise_append] at hs
    have hn : ∀ e ∈ l, ¬ e.1 = k := fun e he => (hs.2.2 e he _ List.mem_cons_self).ne
    have hf : l.find? (fun e => e.1 = k) = none := by
      rw [List.find?_eq_none]
      intro e he
      simpa using hn e he
    simp [find, hl, List.find?_append, hf]
  · intro h
    rw [find, Option.map_eq_some_iff] at h
    obtain ⟨e, he, hv⟩ := h
    have hk : e.1 = k := by simpa using List.find?_some he
    obtain rfl : e = (k, v) := Prod.ext hk hv
    exact List.mem_of_find?_eq_some he

theorem find_eq_none_iff (m : OrderedMap κ ν) : m.find k = none ↔ ∀ e ∈ m.entries, e.1 ≠ k := by
  simp [find, List.find?_eq_none]

@[simp] theorem find_empty : (empty : OrderedMap κ ν).find k = none := rfl

theorem find_emplace_self (m : OrderedMap κ ν) (h : m.find k = none) :
    (m.emplace k v).find k = some v := by
  rw [find_eq_none_iff] at h
  rw [← mem_iff_find]
  change (k, v) ∈ insertEntry k v m.entries
  generalize m.entries = es at h
  induction es with
  | nil => simp [insertEntry]
  | cons e es ih =>
    rw [insertEntry, if_neg (c := k = e.1) (Ne.symm (h e (by simp)))]
    split_ifs with h₁
    · simp
    · exact List.mem_cons_of_mem _ (ih fun e he => h e (by simp [he]))

theorem mem_insertEntry_of_mem {es : List (κ × ν)} (h : e ∈ es) : e ∈ insertEntry k v es := by
  induction es with
  | nil => cases h
  | cons x es ih =>
    rw [insertEntry]
    split_ifs with h₁ h₂
    · exact List.mem_cons_of_mem _ h
    · exact h
    · rcases List.mem_cons.1 h with rfl | h
      · exact List.mem_cons_self
      · exact List.mem_cons_of_mem _ (ih h)

theorem find_emplace_of_ne (m : OrderedMap κ ν) (h : k' ≠ k) :
    (m.emplace k v).find k' = m.find k' := by
  apply Option.ext
  intro w
  rw [← mem_iff_find, ← mem_iff_find]
  constructor
  · intro hm
    rcases mem_insertEntry hm with he | he
    · exact absurd (congrArg Prod.fst he) h
    · exact he
  · exact mem_insertEntry_of_mem

theorem find_erase_self (m : OrderedMap κ ν) : (m.erase k).find k = none := by
  rw [find_eq_none_iff]
  intro e he
  simpa using (List.mem_filter.1 he).2

theorem find_erase_of_ne (m : OrderedMap κ ν) (h : k' ≠ k) :
    (m.erase k).find k' = m.find k' := by
  apply Option.ext
  intro w
  rw [← mem_iff_find, ← mem_iff_find]
  simp [erase, h]

theorem find_modify (m : OrderedMap κ ν) (k k' : κ) (f : ν → ν) :
    (m.modify k f).find k' = (m.find k').map fun v => if k' = k then f v else v := by
  change (List.find? _ (m.entries.map _)).map _ = ((m.entries.find? _).map _).map _
  generalize m.entries = es
  induction es with
  | nil => rfl
  | cons e es ih =>
    by_cases he : e.1 = k'
    · subst he
      simp
    · simpa [List.find?_cons, he] using ih

/-- The entries in front of a key, and those from it on. -/
def entriesBefore (m : OrderedMap κ ν) (k : κ) : List (κ × ν) := m.entries.filter fun e => e.1 < k

def entriesFrom (m : OrderedMap κ ν) (k : κ) : List (κ × ν) := m.entries.filter fun e => k ≤ e.1

theorem filter_lt_append_filter_le {es : List (κ × ν)} (h : es.Pairwise fun a b => a.1 < b.1)
    (k : κ) : (es.filter fun e => e.1 < k) ++ (es.filter fun e => k ≤ e.1) = es := by
  induction h with
  | nil => rfl
  | @cons e es he hes ih =>
    by_cases hk : e.1 < k
    · simp only [hk, decide_true, List.filter_cons_of_pos, not_le.2 hk, decide_false,
        Bool.false_eq_true, not_false_eq_true, List.filter_cons_of_neg, List.cons_append, ih]
    · have hn : es.filter (fun e => e.1 < k) = [] := by
        rw [List.filter_eq_nil_iff]
        intro e' he'
        simpa using (not_lt.1 hk).trans (he e' he').le
      rw [hn, List.nil_append] at ih
      simp [hk, hn, not_lt.1 hk, ih]

theorem before_append_from (m : OrderedMap κ ν) (k : κ) :
    m.entriesBefore k ++ m.entriesFrom k = m.entries :=
  filter_lt_append_filter_le m.sorted k

theorem filter_emplace (m : OrderedMap κ ν) (p : κ → Bool) (h : p k = false) :
    ((m.emplace k v).entries.filter fun e => p e.1) = m.entries.filter fun e => p e.1 := by
  change (insertEntry k v m.entries).filter _ = _
  generalize m.entries = es
  induction es with
  | nil => simp [insertEntry, h]
  | cons e es ih =>
    rw [insertEntry]
    split_ifs with h₁ h₂
    · simp [h]
    · rfl
    · simp only [List.filter_cons, ih]

theorem filter_erase (m : OrderedMap κ ν) (p : κ → Bool) (h : p k = false) :
    ((m.erase k).entries.filter fun e => p e.1) = m.entries.filter fun e => p e.1 := by
  change (m.entries.filter _).filter _ = _
  rw [List.filter_filter]
  apply List.filter_congr
  intro e _
  by_cases he : e.1 = k <;> simp [he, h]

theorem entriesFrom_first (m : OrderedMap κ ν) :
    m.entries = (m.first.map m.entriesFrom).getD [] := by
  rw [first]
  cases he : m.entries with
  | nil => rfl
  | cons e es =>
    have hs := m.sorted
    rw [he] at hs
    have hf : m.entriesFrom e.1 = e :: es := by
      rw [entriesFrom, he, List.filter_eq_self]
      intro e' hm
      rcases List.mem_cons.1 hm with rfl | hm
      · simp
      · simpa using ((List.pairwise_cons.1 hs).1 e' hm).le
    simp [hf]

theorem find_first (m : OrderedMap κ ν) (h : m.first = some k) : ∃ v, m.find k = some v := by
  obtain ⟨e, he, rfl⟩ := Option.map_eq_some_iff.1 h
  exact ⟨e.2, m.mem_iff_find.1 (List.mem_of_head? he)⟩

theorem find_next (m : OrderedMap κ ν) (h : m.next k = some k') : ∃ v, m.find k' = some v := by
  obtain ⟨e, he, rfl⟩ := Option.map_eq_some_iff.1 h
  exact ⟨e.2, m.mem_iff_find.1 (List.mem_of_find?_eq_some he)⟩

theorem entriesFrom_next (m : OrderedMap κ ν) (h : m.find k = some v) :
    m.entriesFrom k = (k, v) :: ((m.next k).map m.entriesFrom).getD [] := by
  obtain ⟨l, r, hl⟩ := List.append_of_mem (m.mem_iff_find.2 h)
  have hs := m.sorted
  rw [hl, List.pairwise_append, List.pairwise_cons] at hs
  obtain ⟨_, ⟨hr, hs'⟩, hlr⟩ := hs
  have hlt : ∀ e ∈ l, e.1 < k := fun e he => hlr e he _ List.mem_cons_self
  have hleft : ∀ k' : κ, k ≤ k' → l.filter (fun e => k' ≤ e.1) = [] := by
    intro k' hk
    rw [List.filter_eq_nil_iff]
    intro e he
    simpa using (hlt e he).trans_le hk
  have hfrom : m.entriesFrom k = (k, v) :: r := by
    rw [entriesFrom, hl, List.filter_append, hleft k le_rfl, List.nil_append]
    apply List.filter_eq_self.2
    intro e he
    rcases List.mem_cons.1 he with rfl | he
    · simp
    · simpa using (hr e he).le
  have hnext : m.next k = r.head?.map Prod.fst := by
    have hf : l.find? (fun e => k < e.1) = none := by
      rw [List.find?_eq_none]
      intro e he
      simpa using (hlt e he).le
    rw [next, hl, List.find?_append, hf, Option.none_or, List.find?_cons_of_neg (by simp)]
    cases r with
    | nil => rfl
    | cons e r => rw [List.find?_cons_of_pos (by simpa using hr e List.mem_cons_self)]; rfl
  rw [hfrom, hnext]
  cases r with
  | nil => rfl
  | cons e r =>
    have he := hr e List.mem_cons_self
    have hr' : m.entriesFrom e.1 = e :: r := by
      rw [entriesFrom, hl, List.filter_append, hleft _ he.le, List.nil_append,
        List.filter_cons_of_neg (by simpa using he)]
      apply List.filter_eq_self.2
      intro e' he'
      rcases List.mem_cons.1 he' with rfl | he'
      · simp
      · simpa using ((List.pairwise_cons.1 hs').1 e' he').le
    simp [hr']

end OrderedMap
