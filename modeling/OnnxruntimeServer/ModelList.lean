import OnnxruntimeServer.SessionKeyWithOption

namespace OnnxruntimeServer
set_option autoImplicit true
open Regex Pattern Squeeze

/-- Every `(` is closed by a later `)`. -/
def Closed (s : Bytes) : Prop := ∀ t, 0x28 :: t <:+ s → 0x29 ∈ t

theorem Closed.of_suffix (h : Closed s) (ht : t <:+ s) : Closed t :=
  fun _ h' => h _ (h'.trans ht)

theorem closed_cons : Closed (c :: s) ↔ (c = 0x28 → 0x29 ∈ s) ∧ Closed s := by
  constructor
  · intro h
    refine ⟨?_, h.of_suffix (List.suffix_cons c s)⟩
    rintro rfl
    exact h s List.suffix_rfl
  · rintro ⟨hc, h⟩ t ht
    rcases List.suffix_cons_iff.1 ht with heq | ht
    · obtain ⟨rfl, rfl⟩ := List.cons.inj heq
      exact hc rfl
    · exact h t ht

theorem closed_filter (s : Bytes) : Closed (s.filter fun c => !isSpace c) ↔ Closed s := by
  induction s with
  | nil => rfl
  | cons c s ih =>
    rw [closed_cons, ← ih]
    by_cases hc : isSpace c = true
    · have hne : ¬ c = 0x28 := by
        rintro rfl
        cases hc
      simp [hc, hne]
    · have hmem : 0x29 ∈ s.filter (fun c => !isSpace c) ↔ 0x29 ∈ s := by
        simp [List.mem_filter, show isSpace 0x29 = false from rfl]
      rw [List.filter_cons_of_pos (by simp [hc]), closed_cons, hmem]

namespace SessionKeyWithOption

theorem keyRe_consumes : keyRe.Consumes :=
  (((consumes_one isNameChar).seq _).group).seq _

theorem optionRe_consumes : optionRe.Consumes :=
  (((consumes_one isKeyStart).seq _).group).seq _

/-- A space ends a name and a version; the options of a closed list end before it anyway. -/
theorem keyRe_local (h : Closed s) (u : Bytes) : keyRe.Local (0x20 :: u) s := by
  have hone : ∀ {p : UInt8 → Bool}, p 0x20 = false →
      ∀ a ∈ (0x20 :: u : Bytes).head?, p a = false := by
    intro p hp a ha
    obtain rfl := Option.some.inj ha
    exact hp
  have hoptions : (seq (one (· == 0x28)) (seq (group (plus (· != 0x29))) (one (· == 0x29)))).Local
      (0x20 :: u) s := by
    intro t ht
    cases t with
    | nil => rfl
    | cons a t =>
      by_cases ha : a = 0x28
      · subst ha
        have hstop : ∃ c ∈ t, (c != 0x29) = false := ⟨0x29, h t ht, rfl⟩
        have hclose : ∀ c : UInt8, (c != 0x29) = true → (c == 0x29) = false := by simp
        have hbody := run_plus_one_append hclose hstop (0x20 :: u)
        simp only [List.cons_append, run, beq_self_eq_true, if_true, List.flatMap_cons,
          List.flatMap_nil, List.append_nil, List.map_map, Function.comp_def] at hbody ⊢
        rw [hbody]
        simp [Function.comp_def]
      · simp [run, ha]
  have hname : isNameChar 0x20 = false := rfl
  have hversion : isVersionChar 0x20 = false := rfl
  exact (local_word (hone hname) (hone hname) s).group.seq ((local_one (hone rfl) s).seq
    ((local_word (hone hversion) (hone hversion) s).group.seq hoptions.group.opt))

theorem closed_normalizeList (h : Closed a) : Closed (normalizeList a) := by
  have hfilter : (normalizeList a).filter (fun c => !isSpace c) =
      a.filter fun c => !isSpace c := filter_tidy rfl a
  rw [← closed_filter, hfilter, closed_filter]
  exact h

theorem keyRe_valid (h : x ∈ keyRe.run s) :
    isValidModelName (x.1.str 1) = true ∧ isValidModelVersion (x.1.str 2) = true := by
  obtain ⟨name, hname, x', h', rfl⟩ := mem_run_seq.1 h
  obtain ⟨colon, hcolon, x'', h'', rfl⟩ := mem_run_seq.1 h'
  obtain ⟨version, hversion, options, _, rfl⟩ := mem_run_seq.1 h''
  obtain ⟨⟨_, rest⟩, hword, rfl⟩ := mem_run_group.1 hname
  obtain ⟨a, t, rfl, ha, ht⟩ := mem_run_word hword
  obtain ⟨⟨_, rest'⟩, hword', rfl⟩ := mem_run_group.1 hversion
  obtain ⟨b, u, rfl, hb, hu⟩ := mem_run_word hword'
  have hgroups : colon.1.groups = [] := by
    cases rest with
    | nil => cases hcolon
    | cons c rest =>
      rw [run] at hcolon
      split at hcolon
      · rw [List.mem_singleton.1 hcolon]
      · cases hcolon
  have hnames : (a :: t).all isNameChar = true := by
    rw [List.all_cons, ha, List.all_eq_true.2 ht]
    rfl
  have hversions : (b :: u).all isVersionChar = true := by
    rw [List.all_cons, hb, List.all_eq_true.2 hu]
    rfl
  refine ⟨hnames, ?_⟩
  simp only [Match.str, Match.append, hgroups]
  exact hversions

theorem sessionKey_valid (hn : isValidModelName model_name = true)
    (hv : isValidModelVersion model_version = true) :
    sessionKey model_name model_version = .ok ⟨model_name, model_version, hn, hv⟩ := by
  rw [sessionKey, dif_pos hn, dif_pos hv]

theorem mapM_ofMatch (list : Bytes) : ∃ models, (keyRe.scan list).1.mapM ofMatch = .ok models := by
  have hall : ∀ m ∈ (keyRe.scan list).1, ∃ model, ofMatch m = .ok model := by
    intro m hm
    obtain ⟨t, x, _, hx, rfl⟩ := mem_scan hm
    obtain ⟨hn, hv⟩ := keyRe_valid hx
    rw [ofMatch, make, sessionKey_valid hn hv]
    exact ⟨_, rfl⟩
  generalize (keyRe.scan list).1 = found at hall
  induction found with
  | nil => exact ⟨[], rfl⟩
  | cons m found ih =>
    obtain ⟨model, hmodel⟩ := hall m List.mem_cons_self
    obtain ⟨models, hmodels⟩ := ih fun m' hm' => hall m' (List.mem_cons_of_mem m hm')
    rw [List.mapM_cons, hmodel, hmodels]
    exact ⟨_, rfl⟩

theorem parse_eq_ok : parse list = .ok models ↔
    (keyRe.scan (normalizeList list)).1.mapM ofMatch = .ok models ∧
      (keyRe.scan (normalizeList list)).2 = [] := by
  obtain ⟨found, hfound⟩ := mapM_ofMatch (normalizeList list)
  rw [parse]
  by_cases hnil : normalizeList list = []
  · rw [if_pos hnil, hnil]
    simp [scan, scanFrom, eq_comm, pure, Except.pure]
  · rw [if_neg hnil]
    simp only [hfound]
    by_cases hrest : (keyRe.scan (normalizeList list)).2 = []
    · simp [bind, Except.bind, hrest]
    · simp [bind, Except.bind, hrest]

def Blank (list : Bytes) : Prop := ∀ c ∈ list, isSpace c = true

theorem blank_iff : Blank list ↔ normalizeList list = [] := (tidy_eq_nil rfl).symm

/-- The list is parsed exactly when its parts are, and to what they are parsed to. -/
def Compositional (a b : Bytes) : Prop :=
  ∀ models, parse (a ++ ascii " " ++ b) = .ok models ↔
    ∃ xs ys, parse a = .ok xs ∧ parse b = .ok ys ∧ models = xs ++ ys

theorem normalizeList_append (a b : Bytes) : normalizeList (a ++ ascii " " ++ b) =
    if normalizeList a = [] then normalizeList b
    else if normalizeList b = [] then normalizeList a
    else normalizeList a ++ 0x20 :: normalizeList b := by
  have hspace : isSpace 0x20 = true := rfl
  have htidy := tidy_append hspace hspace a b
  rw [List.append_assoc]
  exact htidy

/-- What a list holds before a space is found there whatever follows it, and what is left of it is
passed over exactly when something can be parsed behind it. -/
theorem parse_append (hc : Closed a) (ha : ¬ Blank a) (hb : ¬ Blank b) :
    parse (a ++ ascii " " ++ b) = .ok models ↔
      ∃ xs ys, (keyRe.scan (normalizeList a)).1.mapM ofMatch = .ok xs ∧ parse b = .ok ys ∧
        models = xs ++ ys := by
  rw [blank_iff] at ha hb
  have hscan := scan_append_sep keyRe_consumes
    (keyRe_local (closed_normalizeList hc) (normalizeList b))
  obtain ⟨xs, hxs⟩ := mapM_ofMatch (normalizeList a)
  obtain ⟨ys, hys⟩ := mapM_ofMatch (normalizeList b)
  have hrest : (if (keyRe.scan (normalizeList b)).1 = [] then
      (keyRe.scan (normalizeList a)).2 ++ 0x20 :: normalizeList b
      else (keyRe.scan (normalizeList b)).2) = [] ↔ (keyRe.scan (normalizeList b)).2 = [] := by
    split
    · rename_i hnone
      have hsame : (keyRe.scan (normalizeList b)).2 = normalizeList b := scan_of_nil hnone
      simp [hsame, hb]
    · rfl
  rw [parse_eq_ok, normalizeList_append, if_neg ha, if_neg hb, hscan, List.mapM_append, hrest]
  simp only [parse_eq_ok, hxs, hys]
  constructor
  · rintro ⟨h, hnil⟩
    exact ⟨xs, ys, rfl, ⟨rfl, hnil⟩, (Except.ok.inj h).symm⟩
  · rintro ⟨xs', ys', hxs', ⟨hys', hnil⟩, rfl⟩
    obtain rfl := Except.ok.inj hxs'
    obtain rfl := Except.ok.inj hys'
    exact ⟨rfl, hnil⟩

theorem parse_blank (h : Blank list) : parse list = .ok [] := by
  rw [parse, blank_iff.1 h, if_pos rfl]

theorem compositional_blank_left (ha : Blank a) (b : Bytes) : Compositional a b := by
  intro models
  rw [parse_eq_ok, normalizeList_append, if_pos (blank_iff.1 ha), ← parse_eq_ok, parse_blank ha]
  constructor
  · exact fun h => ⟨[], models, rfl, h, rfl⟩
  · rintro ⟨xs, ys, hxs, hys, rfl⟩
    rwa [← Except.ok.inj hxs]

theorem compositional_blank_right (ha : ¬ Blank a) (hb : Blank b) : Compositional a b := by
  intro models
  rw [parse_eq_ok, normalizeList_append, if_neg (mt blank_iff.2 ha), if_pos (blank_iff.1 hb),
    ← parse_eq_ok, parse_blank hb]
  constructor
  · exact fun h => ⟨models, [], h, rfl, (List.append_nil _).symm⟩
  · rintro ⟨xs, ys, hxs, hys, rfl⟩
    rwa [← Except.ok.inj hys, List.append_nil]

/-- Parsing is compositional but for a list that does not end in a model before one that does. -/
theorem parse_compositional_iff (hc : Closed a) (b : Bytes) :
    Compositional a b ↔ Blank a ∨ keyRe.EndsInMatch (normalizeList a) ∨ Blank b ∨
      ¬ keyRe.EndsInMatch (normalizeList b) := by
  have hends : ∀ list : Bytes, ¬ Blank list → (keyRe.EndsInMatch (normalizeList list) ↔
      (keyRe.scan (normalizeList list)).2 = []) := by
    intro list hl
    rw [endsInMatch_iff keyRe_consumes]
    exact and_iff_right (mt blank_iff.2 hl)
  by_cases ha : Blank a
  · exact iff_of_true (compositional_blank_left ha b) (.inl ha)
  by_cases hb : Blank b
  · exact iff_of_true (compositional_blank_right ha hb) (.inr (.inr (.inl hb)))
  have hparse : ∀ models, parse (a ++ ascii " " ++ b) = .ok models ↔ _ :=
    fun models => parse_append hc ha hb
  obtain ⟨xs, hxs⟩ := mapM_ofMatch (normalizeList a)
  constructor
  · intro h
    refine .inr ?_
    by_cases hends' : keyRe.EndsInMatch (normalizeList b)
    · obtain ⟨ys, hys⟩ := mapM_ofMatch (normalizeList b)
      have hok : parse b = .ok ys := parse_eq_ok.2 ⟨hys, (hends b hb).1 hends'⟩
      obtain ⟨xs', ys', hxs', _⟩ := (h _).1 ((hparse _).2 ⟨xs, ys, hxs, hok, rfl⟩)
      exact .inl ((hends a ha).2 (parse_eq_ok.1 hxs').2)
    · exact .inr (.inr hends')
  · intro h models
    rw [hparse]
    constructor
    · rintro ⟨xs', ys, hxs', hys, rfl⟩
      have hb' := (hends b hb).2 (parse_eq_ok.1 hys).2
      have ha' : keyRe.EndsInMatch (normalizeList a) := by
        tauto
      exact ⟨xs', ys, parse_eq_ok.2 ⟨hxs', (hends a ha).1 ha'⟩, hys, rfl⟩
    · rintro ⟨xs', ys, hxs', hys, rfl⟩
      exact ⟨xs', ys, (parse_eq_ok.1 hxs').1, hys, rfl⟩

theorem closed_of_not_mem (h : 0x28 ∉ s) : Closed s := by
  intro t ht
  exact absurd (ht.subset List.mem_cons_self) h

def twoModels : Bytes := ascii "bert:v1 gpt:v2"

theorem parse_compositional_twoModels : Compositional twoModels (ascii "bert:v3(cuda=0)") := by
  have hclosed : Closed twoModels := closed_of_not_mem (by decide)
  apply (parse_compositional_iff hclosed _).2
  exact .inr (.inl (.more rfl (.last rfl)))

def brokenVersion : Bytes := ascii "model:ver" ++ [0x08] ++ ascii "sion"

/-- The version is cut off without an error once another model follows. -/
theorem parse_not_compositional :
    Closed brokenVersion ∧ Closed (ascii "model:version") ∧
      ¬ Compositional brokenVersion (ascii "model:version") := by
  refine ⟨closed_of_not_mem (by decide), closed_of_not_mem (by decide), ?_⟩
  intro h
  have hfirst : (parse brokenVersion).isOk = false := rfl
  have hboth : (parse (brokenVersion ++ ascii " " ++ ascii "model:version")).isOk = true := rfl
  cases hp : parse (brokenVersion ++ ascii " " ++ ascii "model:version") with
  | error e =>
    rw [hp] at hboth
    cases hboth
  | ok models =>
    obtain ⟨xs, ys, hxs, _⟩ := (h models).1 hp
    rw [hxs] at hfirst
    cases hfirst

end SessionKeyWithOption
end OnnxruntimeServer
