import OnnxruntimeServer.JsonParser
import OnnxruntimeServer.NestingDepth

namespace OnnxruntimeServer
set_option autoImplicit true

/-- The value that a token is by itself. -/
def Token.scalar : Token → Option Json
  | .literalTrue => some (.boolean true)
  | .literalFalse => some (.boolean false)
  | .literalNull => some .null
  | .valueString s => some (.string s)
  | .valueUnsigned n => some (.unsigned n)
  | .valueInteger i => some (.integer i)
  | .valueFloat x => if x.isFinite then some (.float x) else none
  | _ => none

def Json.scalarToken : Json → Token
  | .null => .literalNull
  | .boolean b => if b then .literalTrue else .literalFalse
  | .integer i => .valueInteger i
  | .unsigned n => .valueUnsigned n
  | .float x => .valueFloat x
  | .string s => .valueString s
  | .array _ | .object _ => .uninitialized

namespace Document

mutual
/-- The tokens of a text. -/
def tokens (doc : Document) : List Token :=
  match doc with
  | .scalar j _ => [j.scalarToken]
  | .array items => .beginArray :: tokensItems items
  | .object members => .beginObject :: tokensMembers members
termination_by structural doc

def tokensItems (items : List Document) : List Token :=
  match items with
  | [] => [.endArray]
  | item :: items => tokens item ++ tokensNextItems items
termination_by structural items

/-- The items after the first one, and the end of the array. -/
def tokensNextItems (items : List Document) : List Token :=
  match items with
  | [] => [.endArray]
  | item :: items => .valueSeparator :: (tokens item ++ tokensNextItems items)
termination_by structural items

def tokensMembers (members : List (Bytes × Document)) : List Token :=
  match members with
  | [] => [.endObject]
  | (key, doc) :: members =>
    .valueString key :: .nameSeparator :: (tokens doc ++ tokensNextMembers members)
termination_by structural members

def tokensNextMembers (members : List (Bytes × Document)) : List Token :=
  match members with
  | [] => [.endObject]
  | (key, doc) :: members =>
    .valueSeparator :: .valueString key :: .nameSeparator ::
      (tokens doc ++ tokensNextMembers members)
termination_by structural members
end

mutual
/-- The calls that the parser makes for a text. -/
def saxEvents (doc : Document) : List SaxEvent :=
  match doc with
  | .scalar j _ => [.value j]
  | .array items => .startArray :: (saxItems items ++ [.endArray])
  | .object members => .startObject :: (saxMembers members ++ [.endObject])
termination_by structural doc

def saxItems (items : List Document) : List SaxEvent :=
  match items with
  | [] => []
  | item :: items => saxEvents item ++ saxItems items
termination_by structural items

def saxMembers (members : List (Bytes × Document)) : List SaxEvent :=
  match members with
  | [] => []
  | (key, doc) :: members => .key key :: (saxEvents doc ++ saxMembers members)
termination_by structural members
end

mutual
/-- Every number of a text is finite. -/
def Finite (doc : Document) : Prop :=
  match doc with
  | .scalar j _ => j.scalarToken.scalar = some j
  | .array items => FiniteItems items
  | .object members => FiniteMembers members
termination_by structural doc

def FiniteItems (items : List Document) : Prop :=
  match items with
  | [] => True
  | item :: items => Finite item ∧ FiniteItems items
termination_by structural items

def FiniteMembers (members : List (Bytes × Document)) : Prop :=
  match members with
  | [] => True
  | (_, doc) :: members => Finite doc ∧ FiniteMembers members
termination_by structural members
end

end Document

theorem map_fst_cons {toks : List Scanned} (h : toks.map Prod.fst = t :: ts) :
    ∃ lx toks', toks = (t, lx) :: toks' ∧ toks'.map Prod.fst = ts := by
  obtain ⟨⟨t', lx⟩, toks', rfl, rfl, hts⟩ := List.map_eq_cons_iff.1 h
  exact ⟨lx, toks', rfl, hts⟩

theorem after_append (saxed : Saxed) (events events' : List SaxEvent) :
    (saxed.after events').after events = saxed.after (events ++ events') := by
  rw [Saxed.after, Saxed.after, Saxed.after, List.append_assoc]

theorem parseValue_scalar {token : Token} (h : token.scalar = some j) (states : List Bool)
    (last : Scanned) (lx : Lexer) (toks : List Scanned) :
    parseValue states last ((token, lx) :: toks) =
      (stateEvaluation states (token, lx) toks).after [.value j] := by
  cases token with
  | valueFloat x =>
    rw [Token.scalar] at h
    split_ifs at h with hx
    obtain rfl := Option.some.inj h
    exact if_pos hx
  | literalTrue => cases h; rfl
  | literalFalse => cases h; rfl
  | literalNull => cases h; rfl
  | valueString s => cases h; rfl
  | valueUnsigned n => cases h; rfl
  | valueInteger i => cases h; rfl
  | _ => cases h

theorem parseValue_array {next : Scanned} (h : next.1 ≠ .endArray) (states : List Bool)
    (last : Scanned) (lx : Lexer) (toks : List Scanned) :
    parseValue states last ((.beginArray, lx) :: next :: toks) =
      (parseValue (true :: states) (.beginArray, lx) (next :: toks)).after [.startArray] := by
  obtain ⟨token, lx'⟩ := next
  cases token with
  | endArray => exact absurd rfl h
  | _ => rfl

theorem parseValue_object {next : Scanned} (h : next.1 ≠ .endObject) (states : List Bool)
    (last : Scanned) (lx : Lexer) (toks : List Scanned) :
    parseValue states last ((.beginObject, lx) :: next :: toks) =
      (parseKey states (.beginObject, lx) (next :: toks)).after [.startObject] := by
  obtain ⟨token, lx'⟩ := next
  cases token with
  | endObject => exact absurd rfl h
  | _ => rfl

theorem parseKey_key {toks : List Scanned}
    (h : toks.map Prod.fst = .valueString key :: .nameSeparator :: ts) (states : List Bool)
    (last : Scanned) :
    ∃ next lx toks', toks = next :: (.nameSeparator, lx) :: toks' ∧ next.1 ≠ .endObject ∧
      toks'.map Prod.fst = ts ∧
      parseKey states last toks =
        (parseValue (false :: states) (.nameSeparator, lx) toks').after [.key key] := by
  obtain ⟨lx, toks, rfl, hseparator⟩ := map_fst_cons h
  obtain ⟨lx', toks, rfl, hts⟩ := map_fst_cons hseparator
  exact ⟨(.valueString key, lx), lx', toks, rfl, nofun, hts, rfl⟩

namespace Document

theorem tokens_head (doc : Document) :
    ∃ token ts, doc.tokens = token :: ts ∧ token ≠ .endArray ∧ token ≠ .endObject := by
  cases doc with
  | scalar j flat =>
    refine ⟨j.scalarToken, [], rfl, ?_⟩
    cases j with
    | boolean b => cases b <;> exact ⟨nofun, nofun⟩
    | _ => exact ⟨nofun, nofun⟩
  | array items => exact ⟨.beginArray, tokensItems items, rfl, nofun, nofun⟩
  | object members => exact ⟨.beginObject, tokensMembers members, rfl, nofun, nofun⟩

theorem head_of_tokens {doc : Document} {toks : List Scanned}
    (h : toks.map Prod.fst = doc.tokens ++ ts) :
    ∃ next toks', toks = next :: toks' ∧ next.1 ≠ .endArray ∧ next.1 ≠ .endObject := by
  obtain ⟨token, more, htokens, harray, hobject⟩ := doc.tokens_head
  rw [htokens, List.cons_append] at h
  obtain ⟨lx, toks', rfl, _⟩ := map_fst_cons h
  exact ⟨(token, lx), toks', rfl, harray, hobject⟩

mutual
/-- The parser reads the tokens of a text as its events, whatever surrounds them. -/
theorem parseValue_tokens (doc : Document) (hfinite : doc.Finite) {toks : List Scanned}
    (h : toks.map Prod.fst = doc.tokens ++ ts) (states : List Bool) (last : Scanned) :
    ∃ last' rest, rest.map Prod.fst = ts ∧
      parseValue states last toks = (stateEvaluation states last' rest).after doc.saxEvents := by
  cases doc with
  | scalar j flat =>
    obtain ⟨lx, rest, rfl, hrest⟩ := map_fst_cons h
    exact ⟨_, rest, hrest, parseValue_scalar hfinite states last lx rest⟩
  | array items =>
    obtain ⟨lx, toks, rfl, hitems⟩ := map_fst_cons h
    match items with
    | [] =>
      obtain ⟨lx', rest, rfl, hrest⟩ := map_fst_cons hitems
      exact ⟨_, rest, hrest, rfl⟩
    | item :: items =>
      replace hitems := hitems.trans (List.append_assoc _ _ _)
      obtain ⟨next, toks', rfl, hnext, _⟩ := head_of_tokens hitems
      obtain ⟨last₁, rest₁, hrest₁, hitem⟩ :=
        parseValue_tokens item hfinite.1 hitems (true :: states) (.beginArray, lx)
      obtain ⟨last₂, rest₂, hrest₂, hmore⟩ :=
        stateEvaluation_items items hfinite.2 hrest₁ states last₁
      refine ⟨last₂, rest₂, hrest₂, ?_⟩
      rw [parseValue_array hnext, hitem, hmore, after_append, after_append, saxEvents, saxItems]
      simp only [List.append_assoc, List.cons_append, List.nil_append]
  | object members =>
    obtain ⟨lx, toks, rfl, hmembers⟩ := map_fst_cons h
    match members with
    | [] =>
      obtain ⟨lx', rest, rfl, hrest⟩ := map_fst_cons hmembers
      exact ⟨_, rest, hrest, rfl⟩
    | (key, doc) :: members =>
      obtain ⟨next, lx', toks, rfl, hnext, hdoc, hkey⟩ :=
        parseKey_key hmembers states (.beginObject, lx)
      replace hdoc := hdoc.trans (List.append_assoc _ _ _)
      obtain ⟨last₁, rest₁, hrest₁, hvalue⟩ :=
        parseValue_tokens doc hfinite.1 hdoc (false :: states) (.nameSeparator, lx')
      obtain ⟨last₂, rest₂, hrest₂, hmore⟩ :=
        stateEvaluation_members members hfinite.2 hrest₁ states last₁
      refine ⟨last₂, rest₂, hrest₂, ?_⟩
      rw [parseValue_object hnext, hkey, hvalue, hmore, after_append, after_append, after_append,
        saxEvents, saxMembers]
      simp only [List.append_assoc, List.cons_append, List.nil_append]

theorem stateEvaluation_items (items : List Document) (hfinite : FiniteItems items)
    {toks : List Scanned} (h : toks.map Prod.fst = tokensNextItems items ++ ts)
    (states : List Bool) (last : Scanned) :
    ∃ last' rest, rest.map Prod.fst = ts ∧
      stateEvaluation (true :: states) last toks =
        (stateEvaluation states last' rest).after (saxItems items ++ [.endArray]) := by
  match items with
  | [] =>
    obtain ⟨lx, rest, rfl, hrest⟩ := map_fst_cons h
    exact ⟨_, rest, hrest, rfl⟩
  | item :: items =>
    obtain ⟨lx, toks, rfl, hitem⟩ := map_fst_cons h
    replace hitem := hitem.trans (List.append_assoc _ _ _)
    obtain ⟨last₁, rest₁, hrest₁, hvalue⟩ :=
      parseValue_tokens item hfinite.1 hitem (true :: states) (.valueSeparator, lx)
    obtain ⟨last₂, rest₂, hrest₂, hmore⟩ :=
      stateEvaluation_items items hfinite.2 hrest₁ states last₁
    refine ⟨last₂, rest₂, hrest₂, ?_⟩
    change parseValue (true :: states) (.valueSeparator, lx) toks = _
    rw [hvalue, hmore, after_append, saxItems, List.append_assoc]

theorem stateEvaluation_members (members : List (Bytes × Document))
    (hfinite : FiniteMembers members) {toks : List Scanned}
    (h : toks.map Prod.fst = tokensNextMembers members ++ ts) (states : List Bool)
    (last : Scanned) :
    ∃ last' rest, rest.map Prod.fst = ts ∧
      stateEvaluation (false :: states) last toks =
        (stateEvaluation states last' rest).after (saxMembers members ++ [.endObject]) := by
  match members with
  | [] =>
    obtain ⟨lx, rest, rfl, hrest⟩ := map_fst_cons h
    exact ⟨_, rest, hrest, rfl⟩
  | (key, doc) :: members =>
    obtain ⟨lx, toks, rfl, hmember⟩ := map_fst_cons h
    obtain ⟨next, lx', toks, rfl, _, hdoc, hkey⟩ :=
      parseKey_key hmember states (.valueSeparator, lx)
    replace hdoc := hdoc.trans (List.append_assoc _ _ _)
    obtain ⟨last₁, rest₁, hrest₁, hvalue⟩ :=
      parseValue_tokens doc hfinite.1 hdoc (false :: states) (.nameSeparator, lx')
    obtain ⟨last₂, rest₂, hrest₂, hmore⟩ :=
      stateEvaluation_members members hfinite.2 hrest₁ states last₁
    refine ⟨last₂, rest₂, hrest₂, ?_⟩
    change parseKey states (.valueSeparator, lx) (next :: (.nameSeparator, lx') :: toks) = _
    rw [hkey, hvalue, hmore, after_append, after_append, saxMembers]
    simp only [List.append_assoc, List.cons_append, List.nil_append]
end

end Document

/-- What the containers that are still open require of the tokens after a value. -/
def Closes : List Bool → List Token → List Token → Prop
  | [], ts, rest => ts = rest
  | true :: states, ts, rest =>
    ∃ items ts', ts = Document.tokensNextItems items ++ ts' ∧ Document.FiniteItems items ∧
      Closes states ts' rest
  | false :: states, ts, rest =>
    ∃ members ts', ts = Document.tokensNextMembers members ++ ts' ∧
      Document.FiniteMembers members ∧ Closes states ts' rest

theorem scalar_token {token : Token} (h : token.scalar = some j) :
    (j.isArray = false ∧ j.isObject = false) ∧ j.scalarToken = token := by
  cases token with
  | valueFloat x =>
    rw [Token.scalar] at h
    split_ifs at h
    obtain rfl := Option.some.inj h
    exact ⟨⟨rfl, rfl⟩, rfl⟩
  | literalTrue => cases h; exact ⟨⟨rfl, rfl⟩, rfl⟩
  | literalFalse => cases h; exact ⟨⟨rfl, rfl⟩, rfl⟩
  | literalNull => cases h; exact ⟨⟨rfl, rfl⟩, rfl⟩
  | valueString s => cases h; exact ⟨⟨rfl, rfl⟩, rfl⟩
  | valueUnsigned n => cases h; exact ⟨⟨rfl, rfl⟩, rfl⟩
  | valueInteger i => cases h; exact ⟨⟨rfl, rfl⟩, rfl⟩
  | _ => cases h

theorem parseValue_ok {states : List Bool} {token last' : Scanned} {toks rest : List Scanned}
    (h : (parseValue states last (token :: toks)).2 = .ok (last', rest)) :
    (∃ j, token.1.scalar = some j ∧ (stateEvaluation states token toks).2 = .ok (last', rest)) ∨
      (∃ next toks', toks = next :: toks' ∧
        (token.1 = .beginArray ∧ next.1 = .endArray ∨
          token.1 = .beginObject ∧ next.1 = .endObject) ∧
        (stateEvaluation states next toks').2 = .ok (last', rest)) ∨
      token.1 = .beginArray ∧ (parseValue (true :: states) token toks).2 = .ok (last', rest) ∨
      token.1 = .beginObject ∧ (parseKey states token toks).2 = .ok (last', rest) := by
  obtain ⟨token, lx⟩ := token
  cases token with
  | beginArray =>
    cases toks with
    | nil => cases h
    | cons next toks =>
      by_cases hnext : next.1 = .endArray
      · obtain ⟨_, lx'⟩ := next
        obtain rfl : _ = Token.endArray := hnext
        exact .inr (.inl ⟨_, toks, rfl, .inl ⟨rfl, rfl⟩, h⟩)
      · rw [parseValue_array hnext] at h
        exact .inr (.inr (.inl ⟨rfl, h⟩))
  | beginObject =>
    cases toks with
    | nil => cases h
    | cons next toks =>
      by_cases hnext : next.1 = .endObject
      · obtain ⟨_, lx'⟩ := next
        obtain rfl : _ = Token.endObject := hnext
        exact .inr (.inl ⟨_, toks, rfl, .inr ⟨rfl, rfl⟩, h⟩)
      · rw [parseValue_object hnext] at h
        exact .inr (.inr (.inr ⟨rfl, h⟩))
  | valueFloat x =>
    by_cases hx : x.isFinite = true
    · have hscalar : (Token.valueFloat x).scalar = some (.float x) := if_pos hx
      rw [parseValue_scalar hscalar] at h
      exact .inl ⟨_, hscalar, h⟩
    · have hoverflow : parseValue states last ((.valueFloat x, lx) :: toks) =
          ([], .error (overflowError (.valueFloat x, lx))) := if_neg hx
      rw [hoverflow] at h
      cases h
  | literalTrue => exact .inl ⟨_, rfl, h⟩
  | literalFalse => exact .inl ⟨_, rfl, h⟩
  | literalNull => exact .inl ⟨_, rfl, h⟩
  | valueString s => exact .inl ⟨_, rfl, h⟩
  | valueUnsigned n => exact .inl ⟨_, rfl, h⟩
  | valueInteger i => exact .inl ⟨_, rfl, h⟩
  | _ => cases h

theorem parseKey_ok {states : List Bool} {last' : Scanned} {toks rest : List Scanned}
    (h : (parseKey states last toks).2 = .ok (last', rest)) :
    ∃ key lx separator toks', toks = (.valueString key, lx) :: separator :: toks' ∧
      separator.1 = .nameSeparator ∧
      (parseValue (false :: states) separator toks').2 = .ok (last', rest) := by
  cases toks with
  | nil => cases h
  | cons token toks =>
    obtain ⟨token, lx⟩ := token
    cases token with
    | valueString key =>
      cases toks with
      | nil => cases h
      | cons separator toks =>
        obtain ⟨separator, lx'⟩ := separator
        cases separator with
        | nameSeparator => exact ⟨key, lx, _, toks, rfl, rfl, h⟩
        | _ => cases h
    | _ => cases h

theorem stateEvaluation_nil (last : Scanned) (toks : List Scanned) :
    stateEvaluation [] last toks = ([], .ok (last, toks)) := by
  cases toks <;> rfl

theorem stateEvaluation_ok {toks rest : List Scanned}
    (h : (stateEvaluation (state :: states) last toks).2 = .ok (last', rest)) :
    ∃ token toks', toks = token :: toks' ∧
      (token.1 = (if state then .endArray else .endObject) ∧
          (stateEvaluation states token toks').2 = .ok (last', rest) ∨
        token.1 = .valueSeparator ∧
          (if state then parseValue (true :: states) token toks'
            else parseKey states token toks').2 = .ok (last', rest)) := by
  cases state with
  | true =>
    cases toks with
    | nil => cases h
    | cons token toks =>
      refine ⟨token, toks, rfl, ?_⟩
      obtain ⟨token, lx⟩ := token
      cases token with
      | valueSeparator => exact .inr ⟨rfl, h⟩
      | endArray => exact .inl ⟨rfl, h⟩
      | _ => cases h
  | false =>
    cases toks with
    | nil => cases h
    | cons token toks =>
      refine ⟨token, toks, rfl, ?_⟩
      obtain ⟨token, lx⟩ := token
      cases token with
      | valueSeparator => exact .inr ⟨rfl, h⟩
      | endObject => exact .inl ⟨rfl, h⟩
      | _ => cases h

/-- The tokens of a value, and what the open containers require after it. -/
def ReadsValue (states : List Bool) (ts rest : List Token) : Prop :=
  ∃ doc ts', ts = Document.tokens doc ++ ts' ∧ doc.Finite ∧ Closes states ts' rest

/-- The tokens of the members of an object, and what the containers around it require. -/
def ReadsMembers (states : List Bool) (ts rest : List Token) : Prop :=
  ∃ members ts', members ≠ [] ∧ ts = Document.tokensMembers members ++ ts' ∧
    Document.FiniteMembers members ∧ Closes states ts' rest

theorem readsValue_scalar {token : Token} (h : token.scalar = some j)
    (hclose : Closes states ts rest) : ReadsValue states (token :: ts) rest := by
  obtain ⟨hflat, htoken⟩ := scalar_token h
  rw [← htoken] at h ⊢
  exact ⟨.scalar j hflat, ts, rfl, h, hclose⟩

theorem readsValue_array (h : ReadsValue (true :: states) ts rest) :
    ReadsValue states (.beginArray :: ts) rest := by
  obtain ⟨item, _, rfl, hitem, items, ts', rfl, hitems, hclose⟩ := h
  refine ⟨.array (item :: items), ts', ?_, ⟨hitem, hitems⟩, hclose⟩
  rw [Document.tokens, Document.tokensItems, List.cons_append, List.append_assoc]

theorem readsValue_object (h : ReadsMembers states ts rest) :
    ReadsValue states (.beginObject :: ts) rest := by
  obtain ⟨members, ts', _, rfl, hmembers, hclose⟩ := h
  exact ⟨.object members, ts', rfl, hmembers, hclose⟩

theorem readsMembers_key (h : ReadsValue (false :: states) ts rest) (key : Bytes) :
    ReadsMembers states (.valueString key :: .nameSeparator :: ts) rest := by
  obtain ⟨doc, _, rfl, hdoc, members, ts', rfl, hmembers, hclose⟩ := h
  refine ⟨(key, doc) :: members, ts', nofun, ?_, ⟨hdoc, hmembers⟩, hclose⟩
  rw [Document.tokensMembers, List.cons_append, List.cons_append, List.append_assoc]

theorem closes_items (h : ReadsValue (true :: states) ts rest) :
    Closes (true :: states) (.valueSeparator :: ts) rest := by
  obtain ⟨item, _, rfl, hitem, items, ts', rfl, hitems, hclose⟩ := h
  refine ⟨item :: items, ts', ?_, ⟨hitem, hitems⟩, hclose⟩
  rw [Document.tokensNextItems, List.cons_append, List.append_assoc]

theorem closes_members (h : ReadsMembers states ts rest) :
    Closes (false :: states) (.valueSeparator :: ts) rest := by
  obtain ⟨members, ts', hne, rfl, hmembers, hclose⟩ := h
  obtain ⟨⟨key, doc⟩, members, rfl⟩ := List.exists_cons_of_ne_nil hne
  exact ⟨(key, doc) :: members, ts', rfl, hmembers, hclose⟩

theorem closes_end (h : Closes states ts rest) (state : Bool) :
    Closes (state :: states) ((if state then .endArray else .endObject) :: ts) rest := by
  cases state with
  | true => exact ⟨[], ts, rfl, trivial, h⟩
  | false => exact ⟨[], ts, rfl, trivial, h⟩

/-- Whatever the parser accepts was the tokens of a value, and of what its containers require. -/
theorem readsValue_of_parseValue {last last' : Scanned} {toks rest : List Scanned} :
    ((parseValue states last toks).2 = .ok (last', rest) →
        ReadsValue states (toks.map Prod.fst) (rest.map Prod.fst)) ∧
      ((parseKey states last toks).2 = .ok (last', rest) →
        ReadsMembers states (toks.map Prod.fst) (rest.map Prod.fst)) ∧
      ((stateEvaluation states last toks).2 = .ok (last', rest) →
        Closes states (toks.map Prod.fst) (rest.map Prod.fst)) := by
  induction hn : toks.length using Nat.strong_induction_on generalizing states last toks with
  | _ n ih =>
    subst hn
    refine ⟨?_, ?_, ?_⟩
    · intro h
      cases toks with
      | nil => cases h
      | cons token toks =>
        rw [List.map_cons]
        rcases parseValue_ok h with
          ⟨j, hscalar, h⟩ | ⟨next, toks, rfl, hempty, h⟩ | ⟨harray, h⟩ | ⟨hobject, h⟩
        · exact readsValue_scalar hscalar ((ih _ (Nat.lt_succ_self _) rfl).2.2 h)
        · have hclose := (ih _ (by simp) rfl).2.2 h
          rcases hempty with ⟨htoken, hnext⟩ | ⟨htoken, hnext⟩ <;>
            rw [htoken, List.map_cons, hnext]
          · exact ⟨.array [], _, rfl, trivial, hclose⟩
          · exact ⟨.object [], _, rfl, trivial, hclose⟩
        · rw [harray]
          exact readsValue_array ((ih _ (Nat.lt_succ_self _) rfl).1 h)
        · rw [hobject]
          exact readsValue_object ((ih _ (Nat.lt_succ_self _) rfl).2.1 h)
    · intro h
      obtain ⟨key, lx, separator, toks, rfl, hseparator, h⟩ := parseKey_ok h
      rw [List.map_cons, List.map_cons, hseparator]
      exact readsMembers_key ((ih _ (by simp) rfl).1 h) key
    · intro h
      cases states with
      | nil =>
        rw [stateEvaluation_nil] at h
        obtain ⟨_, rfl⟩ := Prod.mk.inj (Except.ok.inj h)
        rfl
      | cons state states =>
        obtain ⟨token, toks, rfl, ⟨hend, h⟩ | ⟨hseparator, h⟩⟩ := stateEvaluation_ok h
        · rw [List.map_cons, hend]
          exact closes_end ((ih _ (Nat.lt_succ_self _) rfl).2.2 h) state
        · rw [List.map_cons, hseparator]
          cases state with
          | true => exact closes_items ((ih _ (Nat.lt_succ_self _) rfl).1 h)
          | false => exact closes_members ((ih _ (Nat.lt_succ_self _) rfl).2.1 h)

end OnnxruntimeServer
