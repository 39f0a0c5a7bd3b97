import OnnxruntimeServer.HttpSession

namespace OnnxruntimeServer
set_option autoImplicit true

def NPOS : Nat := 2 ^ 64 - 1

/-- `a - b` of type `size_t`. -/
def sizeSub (a b : Nat) : Nat := (a + 2 ^ 64 - b) % 2 ^ 64

/-- The backward search of `rfind`, from one position on. -/
def rfindFrom (s needle : Bytes) : Nat → Option Nat
  | 0 => if needle.isPrefixOf s then some 0 else none
  | pos + 1 =>
    if needle.isPrefixOf (s.drop (pos + 1)) then some (pos + 1) else rfindFrom s needle pos

/-- `std::string::rfind`. -/
def rfind (s needle : Bytes) : Nat :=
  if needle.length ≤ s.length then (rfindFrom s needle (s.length - needle.length)).getD NPOS
  else NPOS

theorem rfindFrom_le (h : rfindFrom s needle pos = some i) : i ≤ pos := by
  induction pos with
  | zero =>
    rw [rfindFrom] at h
    split_ifs at h
    exact (Option.some.inj h).ge
  | succ pos ih =>
    rw [rfindFrom] at h
    split_ifs at h
    · exact (Option.some.inj h).ge
    · exact (ih h).trans (Nat.le_succ pos)

theorem rfindFrom_eq_iff (s needle : Bytes) (pos : Nat) :
    rfindFrom s needle pos = some pos ↔ needle.isPrefixOf (s.drop pos) = true := by
  cases pos with
  | zero => simp [rfindFrom]
  | succ pos =>
    rw [rfindFrom]
    split_ifs with hp
    · exact iff_of_true rfl hp
    · refine iff_of_false (fun h => ?_) hp
      exact absurd (rfindFrom_le h) (Nat.not_succ_le_self pos)

theorem isPrefixOf_drop_iff {s needle : Bytes} (h : needle.length ≤ s.length) :
    needle.isPrefixOf (s.drop (s.length - needle.length)) = true ↔ needle <:+ s := by
  have hlen : (s.drop (s.length - needle.length)).length = needle.length := by
    rw [List.length_drop]
    omega
  rw [List.isPrefixOf_iff_prefix]
  constructor
  · intro hp
    rw [hp.eq_of_length hlen.symm]
    exact List.drop_suffix _ s
  · intro hs
    rw [← List.suffix_iff_eq_drop.1 hs]

/-- `rfind` finds a text at its last possible place exactly when the text is the end. -/
theorem rfind_eq_iff {s needle : Bytes} (h : needle.length ≤ s.length) (hs : s.length < 2 ^ 64)
    (hn : 0 < needle.length) : rfind s needle = s.length - needle.length ↔ needle <:+ s := by
  rw [← isPrefixOf_drop_iff h, ← rfindFrom_eq_iff, rfind, if_pos h]
  cases hr : rfindFrom s needle (s.length - needle.length) with
  | none =>
    rw [Option.getD_none, NPOS]
    refine iff_of_false ?_ (by simp)
    omega
  | some i => rw [Option.getD_some, Option.some.injEq]

namespace SwaggerServe

theorem endsWithOpenapi_eq (hl : url.length < 2 ^ 64) :
    endsWithOpenapi url =
      decide (rfind url (ascii "/openapi.yaml") = sizeSub url.length 13) := by
  have hneedle : (ascii "/openapi.yaml").length = 13 := rfl
  rw [endsWithOpenapi, sizeSub]
  by_cases h : 13 ≤ url.length
  · have hsub : (url.length + 2 ^ 64 - 13) % 2 ^ 64 = url.length - 13 := by omega
    have hiff := rfind_eq_iff (hneedle ▸ h) hl (by decide)
    rw [hneedle] at hiff
    rw [if_pos h, hsub, Bool.eq_iff_iff, decide_eq_true_iff, hiff, List.isSuffixOf_iff_suffix]
  · have hnone : rfind url (ascii "/openapi.yaml") = NPOS := if_neg h
    rw [if_neg h, hnone, NPOS, Bool.eq_iff_iff, decide_eq_true_iff, decide_eq_true_iff]
    omega

variable (swagger : SwaggerServe) (url : Bytes) (http_version : Nat)

def openapiResponse : HttpResponse :=
  ⟨200, http_version, ascii "text/yaml", none, true, cString swagger.openapi_yaml⟩

def indexResponse : HttpResponse :=
  ⟨200, http_version, ascii "text/html", none, true, cString swagger.index_html⟩

def redirectResponse : HttpResponse :=
  ⟨302, http_version, ascii "text/plain", some (url ++ ascii "/"), true, ascii "Not Found"⟩

def notFoundResponse : HttpResponse :=
  ⟨404, http_version, ascii "text/plain", none, true, ascii "Not Found"⟩

/-- The routing that the pages are meant to have. -/
structure RoutesExactly : Prop where
  openapi : swagger.getResponse url http_version = swagger.openapiResponse http_version ↔
    ascii "/openapi.yaml" <:+ url
  page : ¬ ascii "/openapi.yaml" <:+ url →
    (swagger.getResponse url http_version = redirectResponse url http_version ∨
        swagger.getResponse url http_version = swagger.indexResponse http_version ↔
      url = swagger.swagger_url_path ∨ url = swagger.swagger_url_path ++ ascii "/")
  notFound : ¬ ascii "/openapi.yaml" <:+ url →
    (swagger.getResponse url http_version = notFoundResponse http_version ↔
      ¬ (url = swagger.swagger_url_path ∨ url = swagger.swagger_url_path ++ ascii "/"))

theorem getResponse_openapi_iff :
    swagger.getResponse url http_version = swagger.openapiResponse http_version ↔
      endsWithOpenapi url = true := by
  rw [getResponse, openapiResponse]
  split_ifs with h₁ h₂ h₃
  · exact iff_of_true rfl h₁
  · exact iff_of_false (by simp) h₁
  · have hne : ascii "text/html" ≠ ascii "text/yaml" := by decide
    exact iff_of_false (fun h => hne (congrArg HttpResponse.content_type h)) h₁
  · exact iff_of_false (by simp) h₁

theorem getResponse_page_iff (h : endsWithOpenapi url = false) :
    (swagger.getResponse url http_version = redirectResponse url http_version ∨
        swagger.getResponse url http_version = swagger.indexResponse http_version) ↔
      url = swagger.swagger_url_path ∨ url = swagger.swagger_url_path ++ ascii "/" := by
  rw [getResponse, redirectResponse, indexResponse, if_neg (by simp [h])]
  split_ifs with hu hl
  · exact iff_of_true (.inl rfl) hu
  · exact iff_of_true (.inr rfl) hu
  · exact iff_of_false (by simp) hu

theorem getResponse_notFound_iff (h : endsWithOpenapi url = false) :
    swagger.getResponse url http_version = notFoundResponse http_version ↔
      ¬ (url = swagger.swagger_url_path ∨ url = swagger.swagger_url_path ++ ascii "/") := by
  rw [getResponse, notFoundResponse, if_neg (by simp [h])]
  split_ifs with hu hl
  · exact iff_of_false (by simp) (not_not.2 hu)
  · exact iff_of_false (by simp) (not_not.2 hu)
  · exact iff_of_true rfl hu

/-- The test of the source is the test for the end of the text, but for texts of twelve bytes. -/
theorem endsWithOpenapi_iff : (endsWithOpenapi url = true ↔ ascii "/openapi.yaml" <:+ url) ↔
    url.length ≠ 12 := by
  have hneedle : (ascii "/openapi.yaml").length = 13 := rfl
  rw [endsWithOpenapi]
  split_ifs with h
  · rw [List.isSuffixOf_iff_suffix]
    exact iff_of_true Iff.rfl (by omega)
  · have hnot : ¬ ascii "/openapi.yaml" <:+ url := by
      intro hs
      have := hs.length_le
      omega
    rw [decide_eq_true_iff, iff_false_right hnot]

/-- The pages are routed exactly as they are meant to be, but for the URLs of twelve bytes, all of
which get the document. -/
theorem routes_exactly_iff (hl : url.length < 2 ^ 64) :
    (swagger.RoutesExactly url http_version ↔ url.length ≠ 12) ∧
      endsWithOpenapi url = decide (rfind url (ascii "/openapi.yaml") = sizeSub url.length 13) := by
  refine ⟨?_, endsWithOpenapi_eq hl⟩
  rw [← endsWithOpenapi_iff]
  constructor
  · intro hr
    rw [← getResponse_openapi_iff swagger url http_version]
    exact hr.openapi
  · intro hiff
    constructor
    · rw [getResponse_openapi_iff, hiff]
    · intro hnot
      apply getResponse_page_iff
      rw [← Bool.not_eq_true, hiff]
      exact hnot
    · intro hnot
      apply getResponse_notFound_iff
      rw [← Bool.not_eq_true, hiff]
      exact hnot

def exampleSwagger : SwaggerServe := ⟨ascii "/swagger", ascii "openapi", ascii "html"⟩

theorem routes_exactly_openapi :
    exampleSwagger.RoutesExactly (ascii "/swagger/openapi.yaml") 11 :=
  ((routes_exactly_iff exampleSwagger (ascii "/swagger/openapi.yaml") 11 (by decide)).1).2
    (by decide)

/-- Twelve bytes: nothing is found, and what is compared with `npos` has wrapped around to it. -/
theorem routes_not_exactly :
    exampleSwagger.isSwaggerUrl (ascii "/swagger/abc") = true ∧
      exampleSwagger.getResponse (ascii "/swagger/abc") 11 = exampleSwagger.openapiResponse 11 ∧
      ¬ ascii "/openapi.yaml" <:+ ascii "/swagger/abc" ∧
      ¬ exampleSwagger.RoutesExactly (ascii "/swagger/abc") 11 := by
  have hnot : ¬ ascii "/openapi.yaml" <:+ ascii "/swagger/abc" := by decide
  exact ⟨rfl, rfl, hnot, fun h => hnot (h.openapi.1 rfl)⟩

end SwaggerServe
end OnnxruntimeServer
