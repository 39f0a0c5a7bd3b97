import OnnxruntimeServer.OptionEntries

namespace OnnxruntimeServer
set_option autoImplicit true
open Regex Pattern Squeeze

def isOptionKey : Bytes → Bool
  | [] => false
  | c :: key => isKeyStart c && key.all isKeyChar

/-- The values of the grammar that do not end the parentheses. -/
def isOptionValue (value : Bytes) : Bool :=
  !value.isEmpty && value.all fun c => isValueChar c && c != 0x29

/-- An entry `key=value` of the options of a model. -/
structure OptionEntry where
  key : Bytes
  value : Bytes
  valid_key : isOptionKey key = true
  valid_value : isOptionValue value = true

/-- An entry of a list of models. -/
structure ModelEntry where
  key : SessionKey
  options : List OptionEntry

def OptionEntry.text (e : OptionEntry) : Bytes := e.key ++ ascii "=" ++ e.value

def OptionEntry.pair (e : OptionEntry) : Bytes × Bytes := (e.key, e.value)

namespace ModelEntry

def optionText (m : ModelEntry) : Bytes :=
  (ascii ", ").intercalate (m.options.map OptionEntry.text)

def text (m : ModelEntry) : Bytes :=
  m.key.model_name ++ ascii ":" ++ m.key.model_version ++
    if m.options = [] then [] else ascii "(" ++ m.optionText ++ ascii ")"

/-- What the model is to be parsed to. -/
def model (m : ModelEntry) : SessionKeyWithOption :=
  ⟨m.key, applyOptions (m.options.map OptionEntry.pair)⟩

end ModelEntry

def printModels (models : List ModelEntry) : Bytes :=
  (ascii " ").intercalate (models.map ModelEntry.text)

namespace SessionKeyWithOption

theorem optionRe_first {key value : Bytes} (hkey : isOptionKey key = true)
    (hne : value ≠ []) (hvalue : ∀ c ∈ value, isValueChar c = true) :
    optionRe.first (key ++ 0x3D :: value) =
      some (⟨key ++ 0x3D :: value, [some key, some value]⟩, []) := by
  cases key with
  | nil => cases hkey
  | cons a key =>
    rw [isOptionKey, Bool.and_eq_true, List.all_eq_true] at hkey
    obtain ⟨b, value, rfl⟩ := List.exists_cons_of_ne_nil hne
    have hspan := span_word hkey.2 (s := 0x3D :: b :: value) (by rintro _ ⟨⟩; rfl)
    have hb := hvalue b List.mem_cons_self
    have hspace : ¬ isSpace b = true := by simp [isValueChar_not_space hb]
    have hvalue' := span_word (s := []) (fun c hc => hvalue c (List.mem_cons_of_mem b hc)) (by simp)
    rw [List.append_nil] at hvalue'
    have hstart : ∀ a t, isSpace a = true → (group (plus isValueChar)).run (a :: t) = [] :=
      fun a t ha => value_start a t (by simp [isValueChar, ha])
    rw [optionRe, first, List.cons_append, run_group_word_seq (key_break _), if_pos hkey.1, hspan.1,
      hspan.2, run_many_seq (equals_start_space _), List.dropWhile_cons_of_neg (by decide),
      run_one_seq, if_pos (by rfl), run_many_seq hstart, List.dropWhile_cons_of_neg hspace,
      List.takeWhile_cons_of_neg hspace, List.takeWhile_cons_of_neg (by decide)]
    have hgroup := first_group_word isValueChar isValueChar b value
    rw [if_pos hb, hvalue'.1, hvalue'.2, first] at hgroup
    simp [plus, hgroup]

end SessionKeyWithOption

open SessionKeyWithOption

namespace OptionEntry

theorem value_chars (e : OptionEntry) : ∀ c ∈ e.value, isValueChar c = true ∧ c ≠ 0x29 := by
  have hvalue := e.valid_value
  simp only [isOptionValue, Bool.and_eq_true, List.all_eq_true, bne_iff_ne] at hvalue
  exact hvalue.2

theorem value_ne_nil (e : OptionEntry) : e.value ≠ [] := by
  have hvalue := e.valid_value
  rw [isOptionValue, Bool.and_eq_true] at hvalue
  simpa using hvalue.1

theorem key_chars (e : OptionEntry) : ∀ c ∈ e.key, isKeyChar c = true := by
  obtain ⟨key, value, hkey, _⟩ := e
  cases key with
  | nil => cases hkey
  | cons a key =>
    rw [isOptionKey, Bool.and_eq_true, List.all_eq_true] at hkey
    intro c hc
    rcases List.mem_cons.1 hc with rfl | hc
    · rw [isKeyChar, hkey.1]
      rfl
    · exact hkey.2 c hc

theorem text_eq (e : OptionEntry) : e.text = e.key ++ 0x3D :: e.value := by
  rw [text, List.append_assoc]
  rfl

theorem text_ne_nil (e : OptionEntry) : e.text ≠ [] := by
  rw [text_eq]
  exact List.append_ne_nil_of_right_ne_nil _ (List.cons_ne_nil _ _)

theorem text_chars (e : OptionEntry) : ∀ c ∈ e.text, isSpace c = false ∧ c ≠ 0x29 := by
  intro c hc
  rw [text_eq] at hc
  rcases List.mem_append.1 hc with hc | hc
  · have hkey := e.key_chars c hc
    refine ⟨isKeyChar_not_space hkey, ?_⟩
    rintro rfl
    cases hkey
  · rcases List.mem_cons.1 hc with rfl | hc
    · exact ⟨rfl, by decide⟩
    · have hvalue := e.value_chars c hc
      exact ⟨isValueChar_not_space hvalue.1, hvalue.2⟩

theorem foundOptions_text (e : OptionEntry) : foundOptions e.text = [e.pair] := by
  have hfirst := optionRe_first e.valid_key e.value_ne_nil fun c hc => (e.value_chars c hc).1
  rw [text_eq, foundOptions, scan_of_some optionRe_consumes (search_of_first hfirst)]
  rfl

end OptionEntry

theorem isVersionChar_chars (h : isVersionChar c = true) : isSpace c = false ∧ c ≠ 0x28 := by
  simp only [isVersionChar, isAlnum, isSpace, Bool.or_eq_true, Bool.and_eq_true, decide_eq_true_eq,
    beq_iff_eq, Bool.or_eq_false_iff, Bool.and_eq_false_iff, decide_eq_false_iff_not,
    beq_eq_false_iff_ne, UInt8.le_iff_toNat_le, ne_eq, ← UInt8.toNat_inj, UInt8.reduceToNat] at *
  omega

/-- The end of `key_re`. -/
def optionsRe : Pattern UInt8 :=
  .opt (.group (.seq (.one (· == 0x28)) (.seq (.group (.plus (· != 0x29))) (.one (· == 0x29)))))

theorem keyRe_first (hn : isValidModelName name = true) (hv : isValidModelVersion version = true)
    (hs : ∀ a ∈ s.head?, isVersionChar a = false) :
    keyRe.first (name ++ 0x3A :: (version ++ s)) = (optionsRe.first s).map fun y =>
      (⟨name ++ 0x3A :: (version ++ y.1.text), some name :: some version :: y.1.groups⟩, y.2) := by
  cases name with
  | nil => cases hn
  | cons a name =>
  cases version with
  | nil => cases hv
  | cons b version =>
    have hname : ∀ c ∈ a :: name, isNameChar c = true := List.all_eq_true.1 hn
    have hversion : ∀ c ∈ b :: version, isVersionChar c = true := List.all_eq_true.1 hv
    rw [List.forall_mem_cons] at hname hversion
    have hnspan := span_word hname.2 (s := 0x3A :: (b :: version ++ s)) (by rintro _ ⟨⟩; rfl)
    have hvspan := span_word hversion.2 hs
    have hcolon : ∀ q a t, isNameChar a = true → (seq (one (· == 0x3A)) q).run (a :: t) = [] := by
      intro q a t ha
      rw [run_one_seq, if_neg]
      rintro h
      rw [beq_iff_eq.1 h] at ha
      cases ha
    have hopt : ∀ t, optionsRe.run t ≠ [] := fun t => List.append_ne_nil_of_right_ne_nil _ (by simp)
    have hrest := first_group_word_seq isVersionChar isVersionChar hopt b (version ++ s)
    rw [if_pos hversion.1, hvspan.1, hvspan.2] at hrest
    have hkey : keyRe = seq (group (word isNameChar isNameChar)) (seq (one (· == 0x3A))
      (seq (group (word isVersionChar isVersionChar)) optionsRe)) := rfl
    rw [hkey, first, List.cons_append, run_group_word_seq (hcolon _), if_pos hname.1, hnspan.1,
      hnspan.2, run_one_seq, if_pos (by rfl), List.map_map, List.head?_map, List.cons_append, ← first,
      hrest, Option.map_map]
    simp [Function.comp_def]

theorem optionsRe_first (hne : s ≠ []) (hs : 0x29 ∉ s) :
    optionsRe.first (0x28 :: (s ++ [0x29])) =
      some (⟨0x28 :: (s ++ [0x29]), [some (0x28 :: (s ++ [0x29])), some s]⟩, []) := by
  obtain ⟨a, s, rfl⟩ := List.exists_cons_of_ne_nil hne
  rw [List.mem_cons, not_or] at hs
  have hbefore : ∀ c ∈ s, (c != 0x29) = true := by
    intro c hc
    rw [bne_iff_ne]
    rintro rfl
    exact hs.2 hc
  have hspan := span_word hbefore (s := [0x29]) (by rintro _ ⟨⟩; rfl)
  have hclose : ∀ (c : UInt8) (t : Bytes), (c != 0x29) = true →
      (one (· == 0x29)).run (c :: t) = [] := by
    intro c t hc
    rw [run, if_neg (by simpa using hc)]
  have hbody : (seq (group (word (· != 0x29) (· != 0x29))) (one (· == 0x29))).run
      (a :: (s ++ [0x29])) = [(⟨a :: s ++ [0x29], [some (a :: s)]⟩, [])] := by
    rw [run_group_word_seq hclose, if_pos (by simpa using Ne.symm hs.1), hspan.1, hspan.2]
    rfl
  rw [optionsRe, first, run, run, run_one_seq, if_pos (by rfl), plus, List.cons_append, hbody]
  rfl

theorem closed_concat (s : Bytes) : Closed (s ++ [0x29]) := by
  induction s with
  | nil => exact closed_of_not_mem (by decide)
  | cons c s ih =>
    rw [List.cons_append, closed_cons]
    exact ⟨fun _ => by simp, ih⟩

theorem closed_append (hs : ∀ c ∈ s, c ≠ 0x28) (ht : Closed t) : Closed (s ++ t) := by
  induction s with
  | nil => exact ht
  | cons c s ih =>
    rw [List.cons_append, closed_cons]
    refine ⟨fun hc => absurd hc (hs c List.mem_cons_self), ?_⟩
    exact ih fun d hd => hs d (List.mem_cons_of_mem c hd)

namespace ModelEntry

theorem optionText_cons (e e' : OptionEntry) (es : List OptionEntry) (key : SessionKey) :
    optionText ⟨key, e :: e' :: es⟩ = e.text ++ 0x2C :: 0x20 :: optionText ⟨key, e' :: es⟩ := by
  rw [optionText, List.map_cons, List.map_cons, List.intercalate_cons_cons, List.append_assoc]
  rfl

theorem foundOptions_optionText (m : ModelEntry) :
    foundOptions m.optionText = m.options.map OptionEntry.pair := by
  obtain ⟨key, options⟩ := m
  induction options with
  | nil => rfl
  | cons e es ih =>
    cases es with
    | nil => simpa [optionText] using e.foundOptions_text
    | cons e' es =>
      rw [optionText_cons, foundOptions_append_comma, foundOptions_space, ih, e.foundOptions_text]
      rfl

theorem spaced_optionText (m : ModelEntry) (h : m.options ≠ []) :
    Spaced isSpace 0x20 m.optionText ∧ 0x29 ∉ m.optionText := by
  obtain ⟨key, options⟩ := m
  induction options with
  | nil => exact absurd rfl h
  | cons e es ih =>
    have htext : ∀ c ∈ e.text, isSpace c = false := fun c hc => (e.text_chars c hc).1
    have hclose : 0x29 ∉ e.text := fun hc => (e.text_chars _ hc).2 rfl
    cases es with
    | nil =>
      have hone : optionText ⟨key, [e]⟩ = e.text := by simp [optionText]
      rw [hone]
      exact ⟨.word e.text_ne_nil htext, hclose⟩
    | cons e' es =>
      obtain ⟨hspaced, hmem⟩ := ih (List.cons_ne_nil _ _)
      have hcomma : ∀ c ∈ e.text ++ [0x2C], isSpace c = false := by
        intro c hc
        rcases List.mem_append.1 hc with hc | hc
        · exact htext c hc
        · rw [List.mem_singleton.1 hc]
          rfl
      have hmore := Spaced.more (List.append_ne_nil_of_left_ne_nil e.text_ne_nil _) hcomma hspaced
      rw [List.append_assoc] at hmore
      rw [optionText_cons]
      refine ⟨hmore, ?_⟩
      simpa using ⟨hclose, hmem⟩

theorem key_chars (m : ModelEntry) :
    ∀ c ∈ m.key.model_name ++ 0x3A :: m.key.model_version, isSpace c = false ∧ c ≠ 0x28 := by
  have hname := m.key.valid_name
  have hversion := m.key.valid_version
  rw [isValidModelName, Bool.and_eq_true, List.all_eq_true] at hname
  rw [isValidModelVersion, Bool.and_eq_true, List.all_eq_true] at hversion
  intro c hc
  rcases List.mem_append.1 hc with hc | hc
  · apply isVersionChar_chars
    rw [isVersionChar, hname.2 c hc]
    rfl
  · rcases List.mem_cons.1 hc with rfl | hc
    · exact ⟨rfl, by decide⟩
    · exact isVersionChar_chars (hversion.2 c hc)

theorem text_eq (m : ModelEntry) : m.text = m.key.model_name ++ 0x3A :: m.key.model_version ++
    if m.options = [] then [] else 0x28 :: (m.optionText ++ [0x29]) := by
  rw [text, List.append_assoc m.key.model_name]
  rfl

theorem spaced_text (m : ModelEntry) : Spaced isSpace 0x20 m.text := by
  have hkey : ∀ c ∈ m.key.model_name ++ 0x3A :: m.key.model_version, isSpace c = false :=
    fun c hc => (m.key_chars c hc).1
  have hne : m.key.model_name ++ 0x3A :: m.key.model_version ≠ [] :=
    List.append_ne_nil_of_right_ne_nil _ (List.cons_ne_nil _ _)
  rw [text_eq]
  by_cases h : m.options = []
  · rw [if_pos h, List.append_nil]
    exact .word hne hkey
  · have hopen : ∀ c ∈ [(0x28 : UInt8)], isSpace c = false := List.forall_mem_singleton.2 rfl
    have hclose : ∀ c ∈ [(0x29 : UInt8)], isSpace c = false := List.forall_mem_singleton.2 rfl
    rw [if_neg h]
    exact .word_append hkey (.word_append hopen ((m.spaced_optionText h).1.append_word hclose))

theorem closed_text (m : ModelEntry) : Closed m.text := by
  rw [text_eq]
  apply closed_append fun c hc => (m.key_chars c hc).2
  split
  · exact closed_of_not_mem List.not_mem_nil
  · rw [← List.cons_append]
    exact closed_concat _

def found (m : ModelEntry) : Match UInt8 :=
  ⟨m.text, [some m.key.model_name, some m.key.model_version,
    if m.options = [] then none else some (0x28 :: (m.optionText ++ [0x29])),
    if m.options = [] then none else some m.optionText]⟩

theorem scan_text (m : ModelEntry) : keyRe.scan m.text = ([m.found], []) := by
  have hfirst : keyRe.first m.text = some (m.found, []) := by
    rw [text_eq, List.append_assoc, List.cons_append, keyRe_first m.key.valid_name
      m.key.valid_version]
    · by_cases h : m.options = []
      · have hnone : optionsRe.first [] = some (⟨[], [none, none]⟩, []) := rfl
        rw [if_pos h, hnone]
        simp [found, text_eq, h]
      · rw [if_neg h, optionsRe_first (m.spaced_optionText h).1.ne_nil (m.spaced_optionText h).2]
        simp [found, text_eq, h]
    · split
      · simp
      · intro a ha
        rw [← Option.some.inj ha]
        rfl
  rw [scan_of_some keyRe_consumes (search_of_first hfirst)]
  rfl

theorem ofMatch_found (m : ModelEntry) : ofMatch m.found = .ok m.model := by
  have hparse : parseOptions (m.found.str 4) = applyOptions (m.options.map OptionEntry.pair) := by
    by_cases h : m.options = []
    · simp [found, Match.str, h]
      rfl
    · simp only [found, Match.str, if_neg h]
      rw [parseOptions]
      exact congrArg applyOptions m.foundOptions_optionText
  rw [ofMatch, hparse, make]
  exact congrArg (· >>= _) (sessionKey_valid m.key.valid_name m.key.valid_version)

end ModelEntry

namespace SessionKeyWithOption

theorem printModels_cons (m m' : ModelEntry) (ms : List ModelEntry) :
    printModels (m :: m' :: ms) = m.text ++ 0x20 :: printModels (m' :: ms) := by
  rw [printModels, List.map_cons, List.map_cons, List.intercalate_cons_cons, List.append_assoc]
  rfl

theorem printModels_one (m : ModelEntry) : printModels [m] = m.text := by
  simp [printModels]

theorem spaced_printModels (m : ModelEntry) (ms : List ModelEntry) :
    Spaced isSpace 0x20 (printModels (m :: ms)) := by
  induction ms generalizing m with
  | nil =>
    rw [printModels_one]
    exact m.spaced_text
  | cons m' ms ih =>
    rw [printModels_cons]
    exact m.spaced_text.append_sep (ih m')

theorem scan_printModels (m : ModelEntry) (ms : List ModelEntry) :
    keyRe.scan (printModels (m :: ms)) = ((m :: ms).map ModelEntry.found, []) := by
  induction ms generalizing m with
  | nil => rw [printModels_one, m.scan_text, List.map_singleton]
  | cons m' ms ih =>
    rw [printModels_cons, scan_append_sep keyRe_consumes (keyRe_local m.closed_text _), ih,
      m.scan_text]
    rfl

/-- What is printed is parsed to what was to be printed. -/
theorem parse_printModels (models : List ModelEntry) :
    parse (printModels models) = .ok (models.map ModelEntry.model) := by
  cases models with
  | nil => rfl
  | cons m ms =>
    have htidy : normalizeList (printModels (m :: ms)) = printModels (m :: ms) :=
      (spaced_printModels m ms).tidy_eq rfl
    rw [parse_eq_ok, htidy, scan_printModels]
    refine ⟨?_, rfl⟩
    generalize m :: ms = models
    induction models with
    | nil => rfl
    | cons m ms ih =>
      rw [List.map_cons, List.mapM_cons, m.ofMatch_found, ih]
      rfl

end SessionKeyWithOption
end OnnxruntimeServer
