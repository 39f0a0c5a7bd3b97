import OnnxruntimeServer.NestedOptions
import OnnxruntimeServer.Lib.FirstOccurrences

namespace OnnxruntimeServer
set_option autoImplicit true
open FirstOccurrences

/-- `add` of `collect_extensions`. -/
def addPath (result : List Json) (path : Bytes) : List Json :=
  if result.any (isPath path) then result else result ++ [.string path]

def addElement (result : List Json) (e : Json) : List Json :=
  if e.isString then addPath result e.getString else result

def collectExtensions (option : Json) : Json :=
  if option.isObject then
    let result := match option.find (ascii "extensions") with
      | some (.array items) => items.foldl addElement []
      | _ => []
    match option.find (ascii "ortextensions_path") with
    | some (.string path) => .array (addPath result path)
    | _ => .array result
  else .array []

def strings (items : List Json) : List Bytes := (items.filter Json.isString).map Json.getString

def arrayPaths (option : Json) : List Bytes :=
  match option.find (ascii "extensions") with
  | some (.array items) => strings items
  | _ => []

def legacyPaths (option : Json) : List Bytes :=
  match option.find (ascii "ortextensions_path") with
  | some (.string path) => [path]
  | _ => []

/-- The paths that an option value names, in the order in which they are looked at. -/
def namedPaths (option : Json) : List Bytes := arrayPaths option ++ legacyPaths option

theorem addPath_map (seen : List Bytes) (path : Bytes) :
    addPath (seen.map .string) path = (addNew seen path).map .string := by
  have hany : (seen.map Json.string).any (isPath path) = true ↔ path ∈ seen := by
    simp [isPath]
  rw [addPath, addNew]
  by_cases h : path ∈ seen
  · rw [if_pos (hany.2 h), if_pos h]
  · rw [if_neg (mt hany.1 h), if_neg h, List.map_append]
    rfl

theorem foldl_addElement (items : List Json) (seen : List Bytes) :
    items.foldl addElement (seen.map .string) = ((strings items).foldl addNew seen).map .string := by
  induction items generalizing seen with
  | nil => rfl
  | cons e items ih =>
    rw [List.foldl_cons, addElement]
    by_cases he : e.isString = true
    · rw [if_pos he, addPath_map, ih, strings, strings, List.filter_cons_of_pos he]
      rfl
    · rw [if_neg he, ih, strings, strings, List.filter_cons_of_neg he]

theorem foldl_addElement_nil (items : List Json) :
    items.foldl addElement [] = (strings items).eraseDups.map .string := by
  have hfold := foldl_addElement items []
  rw [List.map_nil] at hfold
  rw [hfold]
  exact congrArg (List.map Json.string) (foldl_addNew [] (strings items))

theorem collectExtensions_paths (option : Json) :
    collectExtensions option = .array ((namedPaths option).eraseDups.map .string) := by
  by_cases ho : option.isObject = true
  · have hresult : (match option.find (ascii "extensions") with
        | some (.array items) => items.foldl addElement []
        | _ => []) = (arrayPaths option).eraseDups.map .string := by
      rw [arrayPaths]
      split
      · rw [foldl_addElement_nil]
      · rfl
    rw [collectExtensions, if_pos ho, namedPaths, legacyPaths]
    dsimp only
    rw [hresult]
    split
    · rw [addPath_map, addNew_eraseDups]
    · rw [List.append_nil]
  · rw [collectExtensions, if_neg ho, namedPaths, arrayPaths, legacyPaths,
      Json.find_of_not_object ho, Json.find_of_not_object ho]
    rfl

theorem strings_map (paths : List Bytes) : strings (paths.map .string) = paths := by
  induction paths with
  | nil => rfl
  | cons path paths ih =>
    rw [List.map_cons, strings, List.filter_cons_of_pos rfl, List.map_cons, ← strings, ih]
    rfl

/-- The extensions are the first occurrences of what an option value names, and collecting them
again changes nothing. -/
theorem collectExtensions_eq (option : Json) :
    collectExtensions option = .array ((namedPaths option).eraseDups.map .string) ∧
      (namedPaths option).eraseDups.Nodup ∧
      collectExtensions (.object [(ascii "extensions", collectExtensions option)]) =
        collectExtensions option := by
  refine ⟨collectExtensions_paths option, nodup_eraseDups _, ?_⟩
  have hnamed : ∀ items, namedPaths (.object [(ascii "extensions", .array items)]) =
      strings items := fun items => List.append_nil (strings items)
  rw [collectExtensions_paths (.object _), collectExtensions_paths option, hnamed, strings_map,
    eraseDups_of_nodup (nodup_eraseDups _)]

end OnnxruntimeServer
