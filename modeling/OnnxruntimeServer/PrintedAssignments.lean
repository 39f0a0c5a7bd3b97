import OnnxruntimeServer.NestedOptions

namespace OnnxruntimeServer
set_option autoImplicit true

def isSegment (s : Bytes) : Bool := !s.isEmpty && s.all isKeyStart

inductive OptionValue where
  | boolean (b : Bool)
  | integer (i : Int64)
  | text (s : Bytes) (valid : isOptionValue s = true) (plain : Plain s)

namespace OptionValue

def print : OptionValue → Bytes
  | boolean b => if b then ascii "true" else ascii "false"
  | integer i => ascii (toString i.toInt)
  | text s _ _ => s

def json : OptionValue → Json
  | boolean b => .boolean b
  | integer i => .integer i
  | text s _ _ => .string s

end OptionValue

/-- A value at a dotted path that names no extension. -/
structure Assignment where
  path : List Bytes
  value : OptionValue
  path_ne_nil : path ≠ []
  segments : ∀ s ∈ path, isSegment s = true
  no_extension : path.head? ≠ some EXTENSIONS_KEY ∧ path.head? ≠ some LEGACY_EXTENSION_KEY

def Assignment.key (a : Assignment) : Bytes := [0x2E].intercalate a.path

/-- A model and its assignments, none of which lies on the path of another. -/
structure AssignedModel where
  key : SessionKey
  assignments : List Assignment
  incomparable : assignments.Pairwise fun a b => ¬ a.path <+: b.path ∧ ¬ b.path <+: a.path

theorem isOptionValue_numeral (h : numeral raw = some n) : isOptionValue raw = true := by
  have hdigit : ∀ c, isDigit c = true → (isValueChar c && c != 0x29) = true := by
    intro c hc
    simp only [isDigit, isValueChar, isSpace, Bool.and_eq_true, decide_eq_true_eq, Bool.not_eq_true',
      Bool.or_eq_false_iff, Bool.and_eq_false_iff, decide_eq_false_iff_not, beq_eq_false_iff_ne,
      bne_iff_ne, UInt8.le_iff_toNat_le, ne_eq, ← UInt8.toNat_inj, UInt8.reduceToNat] at *
    omega
  have hall : ∀ s : Bytes, (∀ d ∈ s, isDigit d = true) →
      s.all (fun c => isValueChar c && c != 0x29) = true :=
    fun s hs => List.all_eq_true.2 fun c hc => hdigit c (hs c hc)
  rcases numeral_eq_some h with ⟨c, s, rfl, hc, hs, _⟩ | ⟨c, s, rfl, hc, hs, _⟩
  · rw [isOptionValue, List.all_cons, hdigit c hc, hall s hs]
    rfl
  · rw [isOptionValue, List.all_cons, List.all_cons, hdigit c hc, hall s hs]
    rfl

namespace OptionValue

theorem print_valid (v : OptionValue) : isOptionValue v.print = true := by
  cases v with
  | boolean b => cases b <;> rfl
  | integer i => exact isOptionValue_numeral (numeral_toString i.toInt)
  | text s valid _ => exact valid

theorem inferValue_print (v : OptionValue) : inferValue v.print = v.json := by
  cases v with
  | boolean b => cases b <;> rfl
  | integer i =>
    have hnumeral := numeral_toString i.toInt
    have hne : ∀ s, numeral s = none → ascii (toString i.toInt) ≠ s := by
      rintro s hs rfl
      rw [hnumeral] at hs
      cases hs
    have hprint : (integer i).print = ascii (toString i.toInt) := rfl
    rw [hprint, inferValue_eq, if_neg (hne _ rfl), if_neg (hne _ rfl), hnumeral]
    dsimp only
    rw [if_pos (fitsInt64_toInt i), Int64.ofInt_toInt]
    rfl
  | text s valid plain =>
    exact inferValue_plain plain

theorem not_object (v : OptionValue) : ¬ v.json.isObject = true := by
  cases v <;> simp [json, Json.isObject]

end OptionValue

theorem isSegment_iff : isSegment s = true ↔ s ≠ [] ∧ ∀ c ∈ s, isKeyStart c = true := by
  simp [isSegment]

namespace Assignment

theorem splitDot_key (a : Assignment) : splitDot a.key = a.path := by
  have hdot : ∀ s ∈ a.path, 0x2E ∉ s := by
    intro s hs hmem
    cases (isSegment_iff.1 (a.segments s hs)).2 _ hmem
  rw [splitDot_eq, key, List.splitOn_intercalate _ hdot a.path_ne_nil, List.filter_eq_self]
  intro s hs
  simpa using (isSegment_iff.1 (a.segments s hs)).1

theorem key_valid (a : Assignment) : isOptionKey a.key = true := by
  obtain ⟨path, _, hne, hsegments, _⟩ := a
  have hall : ∀ path : List Bytes, (∀ s ∈ path, isSegment s = true) →
      ∀ c ∈ ([0x2E] : Bytes).intercalate path, isKeyChar c = true := by
    intro path hpath
    induction path with
    | nil => simp
    | cons s path ih =>
      rw [List.forall_mem_cons] at hpath
      have hs : ∀ c ∈ s, isKeyChar c = true := by
        intro c hc
        rw [isKeyChar, (isSegment_iff.1 hpath.1).2 c hc]
        rfl
      cases path with
      | nil => simpa using hs
      | cons t path =>
        intro c hc
        rw [List.intercalate_cons_cons, List.mem_append, List.mem_append] at hc
        rcases hc with (hc | hc) | hc
        · exact hs c hc
        · rw [List.mem_singleton.1 hc]
          rfl
        · exact ih hpath.2 c hc
  have hchars := hall path hsegments
  cases path with
  | nil => exact absurd rfl hne
  | cons s path =>
    obtain ⟨hs, hstart⟩ := isSegment_iff.1 (hsegments s List.mem_cons_self)
    obtain ⟨c, s, rfl⟩ := List.exists_cons_of_ne_nil hs
    have hkey : ∃ rest, ([0x2E] : Bytes).intercalate ((c :: s) :: path) = c :: rest := by
      cases path with
      | nil => exact ⟨s, by simp⟩
      | cons t path => exact ⟨_, List.intercalate_cons_cons⟩
    obtain ⟨rest, hrest⟩ := hkey
    rw [hrest, List.forall_mem_cons] at hchars
    rw [key, hrest, isOptionKey, hstart c List.mem_cons_self, List.all_eq_true.2 hchars.2]
    rfl

def entry (a : Assignment) : OptionEntry := ⟨a.key, a.value.print, a.key_valid, a.value.print_valid⟩

end Assignment

namespace AssignedModel

def entry (m : AssignedModel) : ModelEntry := ⟨m.key, m.assignments.map Assignment.entry⟩

def values (assignments : List Assignment) : List (List Bytes × Json) :=
  assignments.map fun a => (a.path, a.value.json)

/-- The option loop over assignments holds just them. -/
theorem exactly_applyOptions (assignments : List Assignment)
    (h : assignments.Pairwise fun a b => ¬ a.path <+: b.path ∧ ¬ b.path <+: a.path) :
    (applyOptions (assignments.map fun a => a.entry.pair)).Exactly (values assignments) := by
  induction assignments using List.reverseRecOn with
  | nil => exact Json.exactly_empty
  | append_singleton assignments a ih =>
    obtain ⟨hpairwise, _, hlast⟩ := List.pairwise_append.1 h
    have hstep : applyOptions ((assignments ++ [a]).map fun a => a.entry.pair) =
        setNested (applyOptions (assignments.map fun a => a.entry.pair)) a.path a.value.json := by
      have hvalue : inferValue a.entry.value = a.value.json := a.value.inferValue_print
      have hpath : splitDot a.entry.key = a.path := a.splitDot_key
      have hnot : ¬ (a.path = [EXTENSIONS_KEY] ∨ a.path = [LEGACY_EXTENSION_KEY]) := by
        obtain ⟨hext, hlegacy⟩ := a.no_extension
        rintro (hp | hp)
        · exact hext (by rw [hp]; rfl)
        · exact hlegacy (by rw [hp]; rfl)
      rw [applyOptions, List.map_append, List.foldl_append, ← applyOptions, List.map_singleton,
        List.foldl_cons, List.foldl_nil, applyOption, OptionEntry.pair, hpath, hvalue]
      rw [if_neg a.path_ne_nil, if_neg fun hboth => hnot hboth.1]
    rw [hstep, values, List.map_append]
    apply (ih hpairwise).setNested a.path_ne_nil a.value.not_object
    intro b hb
    obtain ⟨c, hc, rfl⟩ := List.mem_map.1 hb
    exact hlast c hc a (List.mem_singleton.2 rfl)

end AssignedModel

namespace SessionKeyWithOption

/-- The models that are printed are found again, and each with just its values at their paths. -/
theorem parse_printAssignments (models : List AssignedModel) :
    ∃ found, parse (printModels (models.map AssignedModel.entry)) = .ok found ∧
      List.Forall₂ (fun m f => f.key = m.key ∧ f.option.Exactly (AssignedModel.values m.assignments))
        models found := by
  refine ⟨_, parse_printModels _, ?_⟩
  rw [List.map_map, List.forall₂_map_right_iff, List.forall₂_same]
  intro m _
  refine ⟨rfl, ?_⟩
  have hexactly := AssignedModel.exactly_applyOptions m.assignments m.incomparable
  have hoption : m.entry.model.option =
      applyOptions (m.assignments.map fun a => a.entry.pair) := by
    rw [ModelEntry.model, AssignedModel.entry, List.map_map]
    rfl
  rw [Function.comp_apply, hoption]
  exact hexactly

end SessionKeyWithOption
end OnnxruntimeServer
