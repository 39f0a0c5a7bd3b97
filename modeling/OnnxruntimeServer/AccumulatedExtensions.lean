import OnnxruntimeServer.Extensions

namespace OnnxruntimeServer
set_option autoImplicit true
open FirstOccurrences

namespace OptionEntry

def path (e : OptionEntry) : List Bytes := splitDot e.key

def NamesLibrary (e : OptionEntry) : Prop :=
  e.path = [EXTENSIONS_KEY] ∨ e.path = [LEGACY_EXTENSION_KEY]

/-- The entry puts something below `extensions`. -/
def NestsInExtensions (e : OptionEntry) : Prop :=
  e.path.head? = some EXTENSIONS_KEY ∧ e.path ≠ [EXTENSIONS_KEY]

instance (e : OptionEntry) : Decidable e.NamesLibrary := inferInstanceAs (Decidable (_ ∨ _))

instance (e : OptionEntry) : Decidable e.NestsInExtensions := inferInstanceAs (Decidable (_ ∧ _))

/-- The loop adds the value to the array. -/
def Appends (e : OptionEntry) : Prop := e.NamesLibrary ∧ (inferValue e.value).isString = true

instance (e : OptionEntry) : Decidable e.Appends := inferInstanceAs (Decidable (_ ∧ _))

/-- The loop puts something else in the place of the array. -/
def Destroys (e : OptionEntry) : Prop := e.path.head? = some EXTENSIONS_KEY ∧ ¬ e.Appends

instance (e : OptionEntry) : Decidable e.Destroys := inferInstanceAs (Decidable (_ ∧ _))

end OptionEntry

/-- The libraries that entries name, each where it is named first. -/
def libraries (options : List OptionEntry) : List Bytes :=
  ((options.filter (·.NamesLibrary)).map OptionEntry.value).eraseDups

/-- The libraries that the loop adds. -/
def appended (options : List OptionEntry) : List Bytes :=
  (options.filter (·.Appends)).map OptionEntry.value

theorem find_setNested_of_ne (j : Json) (value : Json) {key : Bytes} (h : path.head? ≠ some key) :
    (setNested j path value).find key = j.find key := by
  cases path with
  | nil => rfl
  | cons k path =>
    have hk : ¬ k = key := fun hk => h (congrArg some hk)
    cases path with
    | nil => rw [setNested, Json.find_set, if_neg hk]
    | cons k' path => rw [setNested_cons, Json.find_set, if_neg hk]

theorem find_setNested_nested (j : Json) (key k : Bytes) (path : List Bytes) (value : Json) :
    ∃ members, (setNested j (key :: k :: path) value).find key = some (.object members) := by
  obtain ⟨members, hat⟩ := atPath_setNested_prefix j [key] k path value
  refine ⟨members, ?_⟩
  rw [List.singleton_append, Json.atPath] at hat
  obtain ⟨child, hfind, hchild⟩ := Option.bind_eq_some_iff.1 hat
  rw [hfind, ← Option.some.inj hchild]

/-- What the option loop has collected: the array of the libraries added since it was last replaced,
and nothing under the old key that would be taken for a library. -/
structure Collected (option : Json) (options : List OptionEntry) : Prop where
  extensions : extensionArray option =
    (appended (options.rtakeWhile (¬ ·.Destroys))).eraseDups.map .string
  legacy : ∀ path, option.find LEGACY_EXTENSION_KEY ≠ some (.string path)

theorem namesLibrary_iff {e : OptionEntry} (h : [] ∉ e.key.splitOn 0x2E) :
    e.NamesLibrary ↔ e.key = EXTENSIONS_KEY ∨ e.key = LEGACY_EXTENSION_KEY := by
  have hpath : e.path = e.key.splitOn 0x2E := by
    rw [OptionEntry.path, splitDot_eq, List.filter_eq_self]
    intro part hpart
    simpa using fun hnil : part = [] => h (hnil ▸ hpart)
  have hone : ∀ k : Bytes, 0x2E ∉ k → (e.key.splitOn 0x2E = [k] ↔ e.key = k) := by
    intro k hk
    constructor
    · intro hsplit
      have hkey : [0x2E].intercalate (e.key.splitOn 0x2E) = e.key := List.intercalate_splitOn _
      rw [← hkey, hsplit, List.intercalate_singleton]
    · intro heq
      rw [heq, List.splitOn_eq_singleton hk]
  rw [OptionEntry.NamesLibrary, hpath, hone _ (by decide), hone _ (by decide)]

theorem EXTENSIONS_KEY_ne : EXTENSIONS_KEY ≠ LEGACY_EXTENSION_KEY := by decide

theorem extensionArray_append (option : Json) (path : Bytes) :
    extensionArray (appendExtension option path) = addPath (extensionArray option) path := by
  rw [appendExtension, addPath]
  split
  · rfl
  · rw [extensionArray, Json.find_set, if_pos rfl]

theorem find_legacy_append (option : Json) (path : Bytes) :
    (appendExtension option path).find LEGACY_EXTENSION_KEY = option.find LEGACY_EXTENSION_KEY := by
  rw [appendExtension]
  split
  · rfl
  · rw [Json.find_set, if_neg EXTENSIONS_KEY_ne]

theorem isString_inferValue (raw : Bytes) : (inferValue raw).isString = true ↔ Plain raw := by
  constructor
  · intro h
    by_contra hp
    rcases inferValue_not_plain hp with ⟨b, hb⟩ | ⟨i, hi⟩
    · rw [hb] at h
      cases h
    · rw [hi] at h
      cases h
  · intro h
    rw [inferValue_plain h]
    rfl

theorem applyOption_of_appends (option : Json) {e : OptionEntry} (h : e.Appends) :
    applyOption option e.key e.value = appendExtension option e.value := by
  have hvalue : inferValue e.value = .string e.value :=
    inferValue_plain ((isString_inferValue _).1 h.2)
  rw [applyOption, if_neg (splitDot_ne_nil e.valid_key), if_pos (by exact h), hvalue]
  rfl

theorem applyOption_of_not_appends (option : Json) {e : OptionEntry} (h : ¬ e.Appends) :
    applyOption option e.key e.value = setNested option e.path (inferValue e.value) := by
  rw [applyOption, if_neg (splitDot_ne_nil e.valid_key)]
  exact if_neg h

theorem find_applyOption (option : Json) {e : OptionEntry} (h : ¬ e.Appends)
    (hkey : e.path.head? = some key) (hext : key = EXTENSIONS_KEY ∨ key = LEGACY_EXTENSION_KEY) :
    ∃ value, (applyOption option e.key e.value).find key = some value ∧
      value.isString = false ∧ value.isArray = false := by
  rw [applyOption_of_not_appends option h]
  cases hpath : e.path with
  | nil =>
    rw [hpath] at hkey
    cases hkey
  | cons k path =>
    rw [hpath] at hkey
    obtain rfl := Option.some.inj hkey
    cases path with
    | nil =>
      have hnames : e.NamesLibrary := by
        rw [OptionEntry.NamesLibrary, hpath]
        exact hext.imp (congrArg (fun k => [k])) (congrArg fun k => [k])
      have hplain : ¬ Plain e.value := fun hp => h ⟨hnames, (isString_inferValue _).2 hp⟩
      rw [setNested, Json.find_set, if_pos rfl]
      rcases inferValue_not_plain hplain with ⟨b, hb⟩ | ⟨i, hi⟩
      · exact ⟨_, rfl, by rw [hb]; rfl, by rw [hb]; rfl⟩
      · exact ⟨_, rfl, by rw [hi]; rfl, by rw [hi]; rfl⟩
    | cons k' path =>
      obtain ⟨members, hfind⟩ := find_setNested_nested option k k' path (inferValue e.value)
      exact ⟨_, hfind, rfl, rfl⟩

theorem appended_snoc (options : List OptionEntry) (e : OptionEntry) : appended (options ++ [e]) =
    if e.Appends then appended options ++ [e.value] else appended options := by
  by_cases he : e.Appends
  · simp [appended, he]
  · simp [appended, he]

theorem Collected.step (h : Collected option options) (e : OptionEntry) :
    Collected (applyOption option e.key e.value) (options ++ [e]) := by
  by_cases ha : e.Appends
  · have hkeep : (options ++ [e]).rtakeWhile (¬ ·.Destroys) =
        options.rtakeWhile (¬ ·.Destroys) ++ [e] :=
      List.rtakeWhile_concat_pos _ _ _ (by simp [OptionEntry.Destroys, ha])
    rw [applyOption_of_appends option ha]
    constructor
    · rw [extensionArray_append, h.extensions, addPath_map, addNew_eraseDups, hkeep,
        appended_snoc, if_pos ha]
    · rw [find_legacy_append]
      exact h.legacy
  by_cases hd : e.path.head? = some EXTENSIONS_KEY
  · have hkeep : (options ++ [e]).rtakeWhile (¬ ·.Destroys) = [] :=
      List.rtakeWhile_concat_neg _ _ _ (by simp [OptionEntry.Destroys, ha, hd])
    obtain ⟨value, hfind, _, harray⟩ := find_applyOption option ha hd (.inl rfl)
    constructor
    · rw [hkeep, extensionArray, hfind]
      cases value with
      | array items => cases harray
      | _ => rfl
    · have hlegacy : e.path.head? ≠ some LEGACY_EXTENSION_KEY := by
        rw [hd]
        exact fun heq => EXTENSIONS_KEY_ne (Option.some.inj heq)
      rw [applyOption_of_not_appends option ha, find_setNested_of_ne _ _ hlegacy]
      exact h.legacy
  · have hkeep : (options ++ [e]).rtakeWhile (¬ ·.Destroys) =
        options.rtakeWhile (¬ ·.Destroys) ++ [e] :=
      List.rtakeWhile_concat_pos _ _ _ (by simp [OptionEntry.Destroys, hd])
    constructor
    · rw [hkeep, appended_snoc, if_neg ha, ← h.extensions, extensionArray,
        extensionArray, applyOption_of_not_appends option ha,
        find_setNested_of_ne _ _ hd]
    · intro path
      by_cases hl : e.path.head? = some LEGACY_EXTENSION_KEY
      · obtain ⟨value, hfind, hstring, _⟩ := find_applyOption option ha hl (.inr rfl)
        rw [hfind]
        rintro ⟨⟩
        cases hstring
      · rw [applyOption_of_not_appends option ha, find_setNested_of_ne _ _ hl]
        exact h.legacy path

theorem collected (options : List OptionEntry) :
    Collected (applyOptions (options.map OptionEntry.pair)) options := by
  induction options using List.reverseRecOn with
  | nil => exact ⟨rfl, fun path h => by cases h⟩
  | append_singleton options e ih =>
    rw [applyOptions, List.map_append, List.foldl_append, ← applyOptions]
    exact ih.step e

theorem Collected.collectExtensions (h : Collected option options) : collectExtensions option =
    .array ((appended (options.rtakeWhile (¬ ·.Destroys))).eraseDups.map .string) := by
  have hlegacy : legacyPaths option = [] := by
    rw [legacyPaths]
    split
    · rename_i path hfind
      exact absurd hfind (h.legacy path)
    · rfl
  have harray : arrayPaths option = strings (extensionArray option) := by
    rw [arrayPaths, extensionArray, EXTENSIONS_KEY]
    cases option.find (ascii "extensions") with
    | none => rfl
    | some value =>
      cases value with
      | array items => rfl
      | _ => rfl
  rw [collectExtensions_paths, namedPaths, hlegacy, List.append_nil, harray, h.extensions,
    strings_map, eraseDups_of_nodup (nodup_eraseDups _)]

theorem rtakeWhile_congr {p q : α → Bool} {xs : List α} (h : ∀ x ∈ xs, p x = q x) :
    xs.rtakeWhile p = xs.rtakeWhile q := by
  induction xs using List.reverseRecOn with
  | nil => rfl
  | append_singleton xs x ih =>
    rw [List.rtakeWhile_concat, List.rtakeWhile_concat, h x (by simp),
      ih fun y hy => h y (List.mem_append_left _ hy)]

theorem appended_eq (h : ∀ e ∈ options, e.NamesLibrary → Plain e.value) :
    appended options = (options.filter (·.NamesLibrary)).map OptionEntry.value := by
  rw [appended]
  apply congrArg
  apply List.filter_congr
  intro e he
  rw [decide_eq_decide]
  exact ⟨And.left, fun hn => ⟨hn, (isString_inferValue _).2 (h e he hn)⟩⟩

/-- The libraries since the last replacement are all of them only if what a replacement has lost is
what comes first again. -/
theorem appended_eq_libraries_iff (options : List OptionEntry) :
    (appended (options.rtakeWhile (¬ ·.Destroys))).eraseDups = libraries options ↔
      (∀ e ∈ options, e.NamesLibrary → Plain e.value) ∧
        libraries (options.rdropWhile (¬ ·.NestsInExtensions)) <+:
          libraries (options.rtakeWhile (¬ ·.NestsInExtensions)) := by
  by_cases hplain : ∀ e ∈ options, e.NamesLibrary → Plain e.value
  · have hsame : options.rtakeWhile (¬ ·.Destroys) = options.rtakeWhile (¬ ·.NestsInExtensions) := by
      apply rtakeWhile_congr
      intro e he
      rw [decide_eq_decide, not_iff_not, OptionEntry.Destroys, OptionEntry.NestsInExtensions]
      apply and_congr_right
      intro hhead
      rw [not_iff_not]
      constructor
      · rintro ⟨hext | hlegacy, _⟩
        · exact hext
        · rw [hlegacy] at hhead
          exact absurd (Option.some.inj hhead).symm EXTENSIONS_KEY_ne
      · exact fun hext => ⟨.inl hext, (isString_inferValue _).2 (hplain e he (.inl hext))⟩
    have hbehind : ∀ e ∈ options.rtakeWhile (¬ ·.NestsInExtensions), e.NamesLibrary →
        Plain e.value := fun e he => hplain e ((List.rtakeWhile_suffix _ _).subset he)
    have hsplit : options = options.rdropWhile (¬ ·.NestsInExtensions) ++
        options.rtakeWhile (¬ ·.NestsInExtensions) := (List.rdropWhile_append_rtakeWhile ..).symm
    rw [and_iff_right hplain, hsame, appended_eq hbehind, ← libraries]
    have hlibraries : libraries options = _ := congrArg libraries hsplit
    rw [hlibraries, libraries, libraries, libraries, List.filter_append, List.map_append, eq_comm,
      eraseDups_append_eq_iff]
  · refine iff_of_false ?_ fun h => hplain h.1
    intro heq
    apply hplain
    intro e he hnames
    have hmem : e.value ∈ libraries options :=
      List.mem_eraseDups.2 (List.mem_map_of_mem (List.mem_filter.2 ⟨he, by simpa using hnames⟩))
    rw [← heq, List.mem_eraseDups] at hmem
    obtain ⟨e', he', hvalue⟩ := List.mem_map.1 hmem
    have happends := (List.mem_filter.1 he').2
    rw [decide_eq_true_eq] at happends
    rw [← hvalue]
    exact (isString_inferValue _).1 happends.2

/-- The libraries that a model is given are all registered, in order and without repetitions,
exactly when none of them is taken for a boolean or an integer, and those named before the last
entry below `extensions` are named first behind it again. -/
theorem libraries_registered_iff (m : ModelEntry) : ∃ option,
    SessionKeyWithOption.parse m.text = .ok [⟨m.key, option⟩] ∧
    (collectExtensions option = .array ((libraries m.options).map .string) ↔
      (∀ e ∈ m.options, e.NamesLibrary → Plain e.value) ∧
        libraries (m.options.rdropWhile (¬ ·.NestsInExtensions)) <+:
          libraries (m.options.rtakeWhile (¬ ·.NestsInExtensions))) := by
  have hparse := SessionKeyWithOption.parse_printModels [m]
  rw [SessionKeyWithOption.printModels_one] at hparse
  refine ⟨_, hparse, ?_⟩
  rw [(collected m.options).collectExtensions, ← appended_eq_libraries_iff, Json.array.injEq]
  apply Function.Injective.eq_iff
  apply List.map_injective_iff.2
  intro a b hab
  exact Json.string.inj hab

def numberedLibrary : ModelEntry where
  key := ⟨ascii "bert", ascii "v3", rfl, rfl⟩
  options := [
    ⟨ascii "extensions", ascii "/a.so", rfl, rfl⟩,
    ⟨ascii "extensions", ascii "1", rfl, rfl⟩]

theorem libraries_lost : ∃ option,
    SessionKeyWithOption.parse numberedLibrary.text = .ok [⟨numberedLibrary.key, option⟩] ∧
      collectExtensions option = .array [] ∧
      libraries numberedLibrary.options = [ascii "/a.so", ascii "1"] :=
  ⟨_, rfl, rfl, rfl⟩

end OnnxruntimeServer
