import OnnxruntimeServer.HttpSession
import OnnxruntimeServer.SessionManager

namespace OnnxruntimeServer
set_option autoImplicit true

namespace SessionKey

def target (key : SessionKey) : Bytes :=
  ascii "/api/sessions/" ++ key.model_name ++ ascii "/" ++ key.model_version

/-- The three methods lead to the tasks for this key and no other. -/
structure Addressable (lib : JsonLibrary) (key : SessionKey) : Prop where
  get : ∀ req : HttpRequest, req.target = key.target → req.method = .get →
    req.task lib = some (.ok (.getSession key.model_name key.model_version))
  post : ∀ req : HttpRequest, req.target = key.target → req.method = .post →
    req.task lib = some ((parseRequestJson lib req.body).map
      (.executeSession key.model_name key.model_version))
  delete : ∀ req : HttpRequest, req.target = key.target → req.method = .delete →
    req.task lib = some (.ok (.destroySession key.model_name key.model_version))

theorem name_ne_slash (key : SessionKey) (h : c ∈ key.model_name) : c ≠ 0x2F := by
  rintro rfl
  have hv := key.valid_name
  rw [isValidModelName, Bool.and_eq_true, List.all_eq_true] at hv
  exact absurd (hv.2 _ h) (by decide)

theorem name_ne_nil (key : SessionKey) : key.model_name ≠ [] := by
  intro h
  have hv := key.valid_name
  rw [h] at hv
  cases hv

theorem version_ne_nil (key : SessionKey) : key.model_version ≠ [] := by
  intro h
  have hv := key.valid_version
  rw [h] at hv
  cases hv

theorem sessionTarget_target (key : SessionKey) : sessionTarget key.target =
    if 0x2F ∈ key.model_version then none else some (key.model_name, key.model_version) := by
  rw [target, sessionTarget_append fun c hc => key.name_ne_slash hc]
  by_cases h : 0x2F ∈ key.model_version
  · rw [if_neg (by simp [h]), if_pos h]
  · rw [if_pos ⟨key.name_ne_nil, key.version_ne_nil, h⟩, if_neg h]

/-- Different keys have different targets: a name ends at the first slash after it. -/
theorem target_injective : Function.Injective target := by
  intro key other h
  rw [target, target, List.append_assoc, List.append_assoc, List.append_assoc,
    List.append_assoc] at h
  replace h := List.append_cancel_left h
  have hpos : ∀ k : SessionKey, ∀ c ∈ k.model_name, decide (c ≠ 0x2F) = true :=
    fun k c hc => decide_eq_true (k.name_ne_slash hc)
  have hsplit : ∀ k : SessionKey,
      (k.model_name ++ (ascii "/" ++ k.model_version)).span (· ≠ 0x2F) =
        (k.model_name, ascii "/" ++ k.model_version) := by
    intro k
    rw [List.span_eq_takeWhile_dropWhile, List.takeWhile_append_of_pos (hpos k),
      List.dropWhile_append_of_pos (hpos k)]
    simp [ascii]
  have hspan := hsplit key
  rw [h, hsplit other] at hspan
  obtain ⟨hname, hversion⟩ := Prod.mk.inj hspan
  have hversion := List.append_cancel_left hversion
  cases key
  cases other
  cases hname
  cases hversion
  rfl

theorem target_ne_sessions (key : SessionKey) : key.target ≠ ascii "/api/sessions" := by
  intro h
  have hl := congrArg List.length h
  rw [target, List.length_append, List.length_append, List.length_append] at hl
  have : (ascii "/api/sessions").length < (ascii "/api/sessions/").length := by decide
  omega

theorem not_addressable_of_slash {key : SessionKey} (h : 0x2F ∈ key.model_version)
    (lib : JsonLibrary) : ¬ key.Addressable lib := by
  intro haddr
  have hget := haddr.get ⟨.get, key.target, 11, true, []⟩ rfl rfl
  simp [HttpRequest.task, sessionTarget_target, h, key.target_ne_sessions] at hget

/-- Over HTTP a session is reached exactly when its version has no slash, and a target reaches no
more than one session. -/
theorem addressable_iff (lib : JsonLibrary) (key : SessionKey) :
    (key.Addressable lib ↔ 0x2F ∉ key.model_version) ∧
      ∀ other : SessionKey, other ≠ key → other.target ≠ key.target := by
  constructor
  · constructor
    · exact fun haddr hslash => not_addressable_of_slash hslash lib haddr
    · intro hslash
      constructor
      · intro req ht hm
        simp only [HttpRequest.task, ht, hm, sessionTarget_target, if_neg hslash]
      · intro req ht hm
        simp only [HttpRequest.task, ht, hm, sessionTarget_target, if_neg hslash]
        cases parseRequestJson lib req.body <;> rfl
      · intro req ht hm
        simp only [HttpRequest.task, ht, hm, sessionTarget_target, if_neg hslash]
  · intro other hne h
    exact hne (target_injective h)

/-- A session can be created with the version `1/2`, and not be reached over HTTP. -/
theorem not_addressable : ∃ key, sessionKey (ascii "m") (ascii "1/2") = .ok key ∧
    ∀ lib, ¬ key.Addressable lib :=
  ⟨⟨ascii "m", ascii "1/2", rfl, rfl⟩, rfl, not_addressable_of_slash (by decide)⟩

end SessionKey
end OnnxruntimeServer
