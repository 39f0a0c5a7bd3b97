import OnnxruntimeServer.ModelList

namespace OnnxruntimeServer
set_option autoImplicit true
open Regex Pattern Squeeze

namespace SessionKeyWithOption

/-- The entries of an option text: what stands between its commas, trimmed. -/
def pieces (option_str : Bytes) : List Bytes := (option_str.splitOn 0x2C).map trim

/-- The assignment that an entry is as a whole. -/
def wholeOption (piece : Bytes) : Option (Bytes × Bytes) :=
  (optionRe.full piece).map fun options => (options.str 1, options.str 2)

def wholeOptions (option_str : Bytes) : List (Bytes × Bytes) :=
  (pieces option_str).filterMap wholeOption

theorem isKeyChar_not_space (h : isKeyChar c = true) : isSpace c = false := by
  simp only [isKeyChar, isKeyStart, isAlnum, isSpace, Bool.or_eq_true, Bool.and_eq_true,
    decide_eq_true_eq, beq_iff_eq, Bool.or_eq_false_iff, Bool.and_eq_false_iff,
    decide_eq_false_iff_not, beq_eq_false_iff_ne, UInt8.le_iff_toNat_le, ne_eq, ← UInt8.toNat_inj,
    UInt8.reduceToNat] at *
  omega

theorem isKeyStart_not_space (h : isKeyStart c = true) : isSpace c = false :=
  isKeyChar_not_space (by rw [isKeyChar, h]; rfl)

theorem isValueChar_not_space (h : isValueChar c = true) : isSpace c = false := by
  simp only [isValueChar, Bool.not_eq_true', Bool.or_eq_false_iff] at h
  exact h.2

theorem not_of_break {p : UInt8 → Bool} (hp : ∀ a, p a = true → isSpace a = false)
    (hc : p 0x2C = false) (ha : a = 0x2C ∨ isSpace a = true) : p a = false := by
  rcases ha with rfl | ha
  · exact hc
  · cases hpa : p a with
    | false => rfl
    | true =>
      rw [hp a hpa] at ha
      cases ha

theorem value_start (a : UInt8) (t : Bytes) (ha : isValueChar a = false) :
    (group (plus isValueChar)).run (a :: t) = [] := by
  simp [run, plus, word, ha]

theorem equals_start (q : Pattern UInt8) (a : UInt8) (t : Bytes) (ha : ¬ a = 0x3D) :
    (seq (one (· == 0x3D)) q).run (a :: t) = [] := by
  simp [run, ha]

theorem equals_start_space (q : Pattern UInt8) (a : UInt8) (t : Bytes) (ha : isSpace a = true) :
    (seq (one (· == 0x3D)) q).run (a :: t) = [] := by
  apply equals_start
  rintro rfl
  cases ha

theorem key_break (q : Pattern UInt8) (a : UInt8) (t : Bytes) (ha : isKeyChar a = true) :
    (seq (many isSpace) (seq (one (· == 0x3D)) q)).run (a :: t) = [] := by
  have hspace : ¬ isSpace a = true := by simp [isKeyChar_not_space ha]
  rw [run_many_seq (equals_start_space _), List.dropWhile_cons_of_neg hspace, equals_start]
  · rfl
  · rintro rfl
    cases ha

theorem optionRe_local {u : Bytes} (hu : ∀ a ∈ u.head?, a = 0x2C ∨ isSpace a = true)
    (hd : ∀ a ∈ (u.dropWhile isSpace).head?, a = 0x2C) (s : Bytes) : optionRe.Local u s := by
  have hbreak : ∀ {p : UInt8 → Bool}, (∀ a, p a = true → isSpace a = false) → p 0x2C = false →
      ∀ a ∈ u.head?, p a = false := fun hp hc a ha => not_of_break hp hc (hu a ha)
  have hequals : ∀ a : UInt8, (a == 0x3D) = true → isSpace a = false := by
    intro a ha
    rw [beq_iff_eq.1 ha]
    rfl
  have hvalue : (seq (many isSpace) (group (plus isValueChar))).Local u s := by
    apply Local.many_seq
    · intro a t ha
      exact value_start a t (by simp [isValueChar, ha])
    · exact (local_word (hbreak (fun _ => isValueChar_not_space) rfl)
        (hbreak (fun _ => isValueChar_not_space) rfl) s).group
    · rfl
    · cases hspace : u.dropWhile isSpace with
      | nil => rfl
      | cons a t => exact value_start a t (by rw [hd a (by rw [hspace]; rfl)]; rfl)
  apply ((local_word (hbreak (fun _ => isKeyStart_not_space) rfl)
    (hbreak (fun _ => isKeyChar_not_space) rfl) s).group).seq
  apply Local.many_seq
  · exact equals_start_space _
  · exact (local_one (hbreak hequals rfl) s).seq hvalue
  · rfl
  · cases hspace : u.dropWhile isSpace with
    | nil => rfl
    | cons a t =>
      apply equals_start
      rw [hd a (by rw [hspace]; rfl)]
      decide

theorem optionRe_greedy : optionRe.Greedy := by
  apply Greedy.group_word_seq
  · exact key_break _
  · apply Greedy.many_seq
    · exact equals_start_space _
    · apply Greedy.one_seq
      apply Greedy.many_seq
      · intro a t ha
        exact value_start a t (by simp [isValueChar, ha])
      · exact greedy_group_word _ _

theorem optionRe_space (ha : isSpace a = true) (t : Bytes) : optionRe.first (a :: t) = none := by
  have hkey : isKeyStart a = false :=
    not_of_break (fun _ => isKeyStart_not_space) rfl (.inr ha)
  simp [optionRe, first, run, word, hkey]

theorem scan_spaces {s : Bytes} (h : ∀ c ∈ s, isSpace c = true) : (optionRe.scan s).1 = [] := by
  have hskip := scan_skip optionRe_consumes (fun c hc t => optionRe_space (h c hc) t) []
  rwa [List.append_nil] at hskip

theorem scan_trim (piece : Bytes) : (optionRe.scan (trim piece)).1 = (optionRe.scan piece).1 := by
  have hlead : ∀ c ∈ piece.takeWhile isSpace, isSpace c = true :=
    fun c hc => List.mem_takeWhile_imp hc
  have hskip := scan_skip optionRe_consumes (fun c hc t => optionRe_space (hlead c hc) t)
    (piece.dropWhile isSpace)
  rw [List.takeWhile_append_dropWhile] at hskip
  have htrail : ∀ c ∈ (piece.dropWhile isSpace).rtakeWhile isSpace, isSpace c = true := by
    intro c hc
    rw [List.rtakeWhile, List.mem_reverse] at hc
    exact List.mem_takeWhile_imp hc
  have hsplit : trim piece ++ (piece.dropWhile isSpace).rtakeWhile isSpace =
      piece.dropWhile isSpace := List.rdropWhile_append_rtakeWhile ..
  rw [hskip, ← hsplit]
  generalize (piece.dropWhile isSpace).rtakeWhile isSpace = trail at htrail
  cases trail with
  | nil => rw [List.append_nil]
  | cons c trail =>
    have hspaces : ∀ c ∈ trail, isSpace c = true := fun d hd => htrail d (List.mem_cons_of_mem c hd)
    have hlocal : optionRe.Local (c :: trail) (trim piece) := by
      apply optionRe_local
      · intro a ha
        obtain rfl := Option.some.inj ha
        exact .inr (htrail _ List.mem_cons_self)
      · intro a ha
        rw [List.dropWhile_eq_nil_iff.2 htrail] at ha
        cases ha
    rw [scan_append_sep optionRe_consumes hlocal, scan_spaces hspaces, List.append_nil]

theorem scan_whole (h : optionRe.full piece = some m) : optionRe.scan piece = ([m], []) := by
  rw [optionRe_greedy.full_eq_some] at h
  rw [scan_of_some optionRe_consumes (search_of_first h)]
  rfl

theorem optionRe_comma (s u : Bytes) : optionRe.Local (0x2C :: u) s := by
  apply optionRe_local
  · intro a ha
    exact .inl (Option.some.inj ha).symm
  · intro a ha
    exact (Option.some.inj ha).symm

theorem foundOptions_append_comma (s u : Bytes) :
    foundOptions (s ++ 0x2C :: u) = foundOptions s ++ foundOptions u := by
  rw [foundOptions, scan_append_sep optionRe_consumes (optionRe_comma s u), List.map_append]
  rfl

theorem foundOptions_space (s : Bytes) : foundOptions (0x20 :: s) = foundOptions s := by
  have hspace : ∀ a ∈ [(0x20 : UInt8)], ∀ t, optionRe.first (a :: t) = none := by
    intro a ha t
    rw [List.mem_singleton.1 ha]
    exact optionRe_space rfl t
  rw [foundOptions, ← List.singleton_append, scan_skip optionRe_consumes hspace]
  rfl

/-- The option loop takes the entries one by one. -/
theorem foundOptions_eq (option_str : Bytes) : foundOptions option_str =
    (pieces option_str).flatMap fun piece => foundOptions piece := by
  have hscan := scan_intercalate optionRe_consumes optionRe_comma (option_str.splitOn 0x2C)
  rw [List.intercalate_splitOn] at hscan
  simp only [foundOptions, pieces, hscan, List.map_flatMap, List.flatMap_map, scan_trim]

/-- What a list of texts yields in all is what they yield as a whole exactly when no text that is
not taken as a whole yields anything. -/
theorem flatMap_eq_filterMap_iff {f : α → List β} {g : α → Option β} {xs : List α}
    (h : ∀ x ∈ xs, ∀ y, g x = some y → f x = [y]) :
    xs.flatMap f = xs.filterMap g ↔ ∀ x ∈ xs, g x = none → f x = [] := by
  have hlength : ∀ xs : List α, (∀ x ∈ xs, ∀ y, g x = some y → f x = [y]) →
      (xs.filterMap g).length ≤ (xs.flatMap f).length := by
    intro xs h
    induction xs with
    | nil => exact le_rfl
    | cons x xs ih =>
      have hxs := ih fun z hz => h z (List.mem_cons_of_mem x hz)
      cases hg : g x with
      | none =>
        rw [List.filterMap_cons_none hg, List.flatMap_cons, List.length_append]
        omega
      | some y =>
        rw [List.filterMap_cons_some hg, List.flatMap_cons, h x List.mem_cons_self y hg]
        simpa using hxs
  induction xs with
  | nil => simp
  | cons x xs ih =>
    have htail : ∀ z ∈ xs, ∀ y, g z = some y → f z = [y] :=
      fun z hz => h z (List.mem_cons_of_mem x hz)
    rw [List.forall_mem_cons]
    refine Iff.trans ?_ (and_congr_right fun _ => ih htail)
    cases hg : g x with
    | none =>
      have hle := hlength xs htail
      rw [List.filterMap_cons_none hg, List.flatMap_cons]
      constructor
      · intro heq
        have hlen := congrArg List.length heq
        rw [List.length_append] at hlen
        have hnil : f x = [] := List.length_eq_zero_iff.1 (by omega)
        rw [hnil] at heq
        exact ⟨fun _ => hnil, heq⟩
      · rintro ⟨hnil, heq⟩
        rw [hnil rfl, heq]
        rfl
    | some y =>
      rw [List.filterMap_cons_some hg, List.flatMap_cons, h x List.mem_cons_self y hg]
      simp

theorem foundOptions_eq_nil : foundOptions piece = [] ↔ optionRe.search piece = none := by
  rw [foundOptions, List.map_eq_nil_iff]
  cases hs : optionRe.search piece with
  | none => simp [scan_of_none hs]
  | some x => simp [scan_of_some optionRe_consumes hs]

/-- The option loop applies the entries that match as a whole, in order and nothing else, exactly
when no other entry holds an assignment somewhere inside. -/
theorem options_whole_iff (option_str : Bytes) :
    (foundOptions option_str = wholeOptions option_str ↔
      ∀ piece ∈ pieces option_str, optionRe.full piece = none → optionRe.search piece = none) ∧
    (foundOptions option_str = wholeOptions option_str →
      parseOptions option_str = applyOptions (wholeOptions option_str)) := by
  have hwhole : ∀ piece ∈ pieces option_str, ∀ e, wholeOption piece = some e →
      foundOptions piece = [e] := by
    intro piece _ e he
    obtain ⟨m, hm, rfl⟩ := Option.map_eq_some_iff.1 he
    rw [foundOptions, scan_whole hm]
    rfl
  constructor
  · rw [foundOptions_eq, wholeOptions, flatMap_eq_filterMap_iff hwhole]
    simp only [foundOptions_eq_nil, wholeOption, Option.map_eq_none_iff]
  · intro h
    rw [parseOptions, h]

/-- The tail of an entry that does not match is an assignment to the option loop. -/
theorem options_not_whole :
    foundOptions (ascii "a-b=1") = [(ascii "b", ascii "1")] ∧ wholeOptions (ascii "a-b=1") = [] ∧
      (parseOptions (ascii "a-b=1")).contains (ascii "b") = true ∧
      (applyOptions (wholeOptions (ascii "a-b=1"))).contains (ascii "b") = false := by
  refine ⟨rfl, rfl, rfl, rfl⟩

end SessionKeyWithOption
end OnnxruntimeServer
