import OnnxruntimeServer.JsonGrammar

namespace OnnxruntimeServer
set_option autoImplicit true

/-- The event that the callback is called for. -/
def SaxEvent.parseEvent : SaxEvent → ParseEvent
  | .startObject => .objectStart
  | .key _ => .key
  | .endObject => .objectEnd
  | .startArray => .arrayStart
  | .endArray => .arrayEnd
  | .value _ => .value

namespace DomParser

variable (dom : DomParser)

@[simp] theorem depths_store (j : Json) : (dom.store j).depths = dom.depths := by
  rw [store]
  split <;> rfl

@[simp] theorem depths_setKey (name : Bytes) : (dom.setKey name).depths = dom.depths := by
  rw [setKey]
  split <;> rfl

@[simp] theorem depths_pop : dom.pop.depths = dom.depths := by
  rw [pop]
  split <;> simp

@[simp] theorem length_store (j : Json) :
    (dom.store j).ref_stack.length = dom.ref_stack.length := by
  rw [store]
  split <;> simp_all

@[simp] theorem length_setKey (name : Bytes) :
    (dom.setKey name).ref_stack.length = dom.ref_stack.length := by
  rw [setKey]
  split <;> simp_all

@[simp] theorem length_pop : dom.pop.ref_stack.length = dom.ref_stack.length - 1 := by
  rw [pop]
  split <;> simp_all

theorem step_report (event : SaxEvent) :
    (dom.step event).depths =
        dom.depths ++ [(event.parseEvent.report dom.ref_stack.length).1] ∧
      (dom.step event).ref_stack.length = (event.parseEvent.report dom.ref_stack.length).2 := by
  cases event <;> simp [step, SaxEvent.parseEvent, ParseEvent.report, callback, push]

theorem depths_foldl (events : List SaxEvent) :
    (events.foldl step dom).depths =
      dom.depths ++ callbackDepths dom.ref_stack.length (events.map SaxEvent.parseEvent) := by
  induction events generalizing dom with
  | nil => simp [callbackDepths]
  | cons event events ih =>
    obtain ⟨hdepths, hlength⟩ := dom.step_report event
    rw [List.foldl_cons, ih, hdepths, hlength, List.map_cons, callbackDepths, List.append_assoc,
      List.singleton_append]

theorem store_depths (depths : List Int) (j : Json) :
    ∃ depths', ({ dom with depths := depths } : DomParser).store j =
      { dom.store j with depths := depths' } := by
  obtain ⟨root, ref_stack, reported⟩ := dom
  refine ⟨depths, ?_⟩
  match ref_stack with
  | [] => rfl
  | .array items :: ref_stack => rfl
  | .object members object_element :: ref_stack => rfl

end DomParser

namespace Document

mutual
theorem parseEvent_saxEvents (doc : Document) :
    doc.saxEvents.map SaxEvent.parseEvent = doc.events := by
  cases doc with
  | scalar j flat => rfl
  | array items =>
    rw [saxEvents, events, List.map_cons, List.map_append, parseEvent_saxItems items]
    rfl
  | object members =>
    rw [saxEvents, events, List.map_cons, List.map_append, parseEvent_saxMembers members]
    rfl

theorem parseEvent_saxItems (items : List Document) :
    (saxItems items).map SaxEvent.parseEvent = eventsItems items := by
  match items with
  | [] => rfl
  | item :: items =>
    rw [saxItems, eventsItems, List.map_append, parseEvent_saxEvents item,
      parseEvent_saxItems items]

theorem parseEvent_saxMembers (members : List (Bytes × Document)) :
    (saxMembers members).map SaxEvent.parseEvent = eventsMembers members := by
  match members with
  | [] => rfl
  | (key, doc) :: members =>
    rw [saxMembers, eventsMembers, List.map_cons, List.map_append, parseEvent_saxEvents doc,
      parseEvent_saxMembers members]
    rfl
end

mutual
theorem foldl_saxEvents (doc : Document) (dom : DomParser) :
    ∃ depths, doc.saxEvents.foldl DomParser.step dom =
      { dom.store doc.value with depths := depths } := by
  cases doc with
  | scalar j flat => exact dom.store_depths _ _
  | array items =>
    obtain ⟨depths, hitems⟩ :=
      foldl_saxItems items ((dom.callback dom.ref_stack.length).push (.array [])) rfl
    rw [saxEvents, List.foldl_cons, List.foldl_append, value]
    rw [DomParser.step, hitems]
    exact dom.store_depths _ _
  | object members =>
    obtain ⟨key, depths, hmembers⟩ :=
      foldl_saxMembers members ((dom.callback dom.ref_stack.length).push (.object [] [])) rfl
    rw [saxEvents, List.foldl_cons, List.foldl_append, value]
    rw [DomParser.step, hmembers]
    exact dom.store_depths _ _

theorem foldl_saxItems (items : List Document) (dom : DomParser)
    (h : dom.ref_stack = .array found :: ref_stack) :
    ∃ depths, (saxItems items).foldl DomParser.step dom =
      { dom with ref_stack := .array (found ++ valueItems items) :: ref_stack, depths := depths } := by
  match items with
  | [] =>
    refine ⟨dom.depths, ?_⟩
    rw [valueItems, List.append_nil, ← h]
    rfl
  | item :: items =>
    obtain ⟨depths, hitem⟩ := foldl_saxEvents item dom
    have hstore : dom.store item.value =
        { dom with ref_stack := .array (found ++ [item.value]) :: ref_stack } := by
      rw [DomParser.store, h]
    rw [hstore] at hitem
    obtain ⟨depths', hitems⟩ := foldl_saxItems items
      ⟨dom.root, .array (found ++ [item.value]) :: ref_stack, depths⟩ rfl
    refine ⟨depths', ?_⟩
    rw [saxItems, List.foldl_append, hitem, hitems, valueItems, List.append_assoc,
      List.singleton_append]

theorem foldl_saxMembers (members : List (Bytes × Document)) (dom : DomParser)
    (h : dom.ref_stack = .object found key :: ref_stack) :
    ∃ key' depths, (saxMembers members).foldl DomParser.step dom =
      { dom with
        ref_stack := .object (valueMembers members found) key' :: ref_stack, depths := depths } := by
  match members with
  | [] =>
    refine ⟨key, dom.depths, ?_⟩
    rw [valueMembers, ← h]
    rfl
  | (name, doc) :: members =>
    obtain ⟨depths, hdoc⟩ := foldl_saxEvents doc (dom.step (.key name))
    have hstore : (dom.step (.key name)).store doc.value =
        { dom.callback dom.ref_stack.length with
          ref_stack := .object (Json.setMember name doc.value found) name :: ref_stack } := by
      rw [DomParser.step, DomParser.setKey, DomParser.callback, h]
      rfl
    rw [hstore] at hdoc
    obtain ⟨key', depths', hmembers⟩ := foldl_saxMembers members
      ⟨dom.root, .object (Json.setMember name doc.value found) name :: ref_stack, depths⟩ rfl
    refine ⟨key', depths', ?_⟩
    rw [saxMembers, List.foldl_cons, List.foldl_append, hdoc, valueMembers]
    exact hmembers
end

end Document

theorem separated_cons (t : Token) (h : Separated ts)
    (hhead : ∀ t', ts.head? = some t' → t'.isNumber = false) : Separated (t :: ts) := by
  cases ts with
  | nil => exact List.isChain_singleton t
  | cons t' ts => exact List.isChain_cons_cons.2 ⟨fun _ => hhead t' rfl, h⟩

theorem separated_cons_of_not {t : Token} (ht : t.isNumber = false) (h : Separated ts) :
    Separated (t :: ts) := by
  cases ts with
  | nil => exact List.isChain_singleton t
  | cons t' ts =>
    refine List.isChain_cons_cons.2 ⟨fun hn => ?_, h⟩
    rw [ht] at hn
    cases hn

namespace Document

theorem tokensNextItems_head (items : List Document) (ts : List Token) :
    ∀ t, (tokensNextItems items ++ ts).head? = some t → t.isNumber = false := by
  intro t ht
  cases items with
  | nil => cases ht; rfl
  | cons item items => cases ht; rfl

theorem tokensNextMembers_head (members : List (Bytes × Document)) (ts : List Token) :
    ∀ t, (tokensNextMembers members ++ ts).head? = some t → t.isNumber = false := by
  intro t ht
  cases members with
  | nil => cases ht; rfl
  | cons member members => cases ht; rfl

mutual
/-- In a text no number follows another one. -/
theorem separated_tokens (doc : Document) (h : Separated ts)
    (hhead : ∀ t, ts.head? = some t → t.isNumber = false) : Separated (doc.tokens ++ ts) := by
  cases doc with
  | scalar j flat => exact separated_cons _ h hhead
  | array items =>
    apply separated_cons_of_not rfl
    match items with
    | [] => exact separated_cons_of_not rfl h
    | item :: items =>
      rw [tokensItems, List.append_eq, List.append_assoc]
      exact separated_tokens item (separated_tokensNextItems items h) (tokensNextItems_head items ts)
  | object members =>
    apply separated_cons_of_not rfl
    match members with
    | [] => exact separated_cons_of_not rfl h
    | (key, doc) :: members =>
      apply separated_cons_of_not rfl
      apply separated_cons_of_not rfl
      rw [List.append_eq, List.append_assoc]
      exact separated_tokens doc (separated_tokensNextMembers members h)
        (tokensNextMembers_head members ts)

theorem separated_tokensNextItems (items : List Document) (h : Separated ts) :
    Separated (tokensNextItems items ++ ts) := by
  match items with
  | [] => exact separated_cons_of_not rfl h
  | item :: items =>
    apply separated_cons_of_not rfl
    rw [List.append_eq, List.append_assoc]
    exact separated_tokens item (separated_tokensNextItems items h) (tokensNextItems_head items ts)

theorem separated_tokensNextMembers (members : List (Bytes × Document)) (h : Separated ts) :
    Separated (tokensNextMembers members ++ ts) := by
  match members with
  | [] => exact separated_cons_of_not rfl h
  | (key, doc) :: members =>
    apply separated_cons_of_not rfl
    apply separated_cons_of_not rfl
    apply separated_cons_of_not rfl
    rw [List.append_eq, List.append_assoc]
    exact separated_tokens doc (separated_tokensNextMembers members h)
      (tokensNextMembers_head members ts)
end

theorem separated (doc : Document) : Separated doc.tokens := by
  have h := doc.separated_tokens List.isChain_nil nofun
  rwa [List.append_nil] at h

end Document

namespace Document

theorem scalar_of_token {flat : j.isArray = false ∧ j.isObject = false} {token : Token}
    (h : (scalar j flat).Finite) (ht : j.scalarToken = token) : token.scalar = some j := by
  rw [← ht]
  exact h

mutual
/-- No two texts have the same tokens, nor does one continue another. -/
theorem tokens_inj (doc doc' : Document) (h : doc.Finite) (h' : doc'.Finite)
    (ht : doc.tokens ++ ts = doc'.tokens ++ ts') : doc = doc' ∧ ts = ts' := by
  cases doc with
  | scalar j flat =>
    cases doc' with
    | scalar j' flat' =>
      have hscalar := scalar_of_token h (List.cons.inj ht).1
      obtain rfl := Option.some.inj (hscalar.symm.trans h')
      exact ⟨rfl, (List.cons.inj ht).2⟩
    | array items => cases scalar_of_token h (List.cons.inj ht).1
    | object members => cases scalar_of_token h (List.cons.inj ht).1
  | array items =>
    cases doc' with
    | scalar j' flat' => cases scalar_of_token h' (List.cons.inj ht).1.symm
    | array items' =>
      obtain ⟨rfl, hts⟩ := tokensItems_inj items items' h h' (List.cons.inj ht).2
      exact ⟨rfl, hts⟩
    | object members => cases (List.cons.inj ht).1
  | object members =>
    cases doc' with
    | scalar j' flat' => cases scalar_of_token h' (List.cons.inj ht).1.symm
    | array items => cases (List.cons.inj ht).1
    | object members' =>
      obtain ⟨rfl, hts⟩ := tokensMembers_inj members members' h h' (List.cons.inj ht).2
      exact ⟨rfl, hts⟩

theorem tokensItems_inj (items items' : List Document) (h : FiniteItems items)
    (h' : FiniteItems items') (ht : tokensItems items ++ ts = tokensItems items' ++ ts') :
    items = items' ∧ ts = ts' := by
  match items, items' with
  | [], [] => exact ⟨rfl, (List.cons.inj ht).2⟩
  | [], item' :: items' =>
    obtain ⟨token, more, htokens, hne, _⟩ := item'.tokens_head
    rw [tokensItems, tokensItems, htokens] at ht
    exact absurd (List.cons.inj ht).1.symm hne
  | item :: items, [] =>
    obtain ⟨token, more, htokens, hne, _⟩ := item.tokens_head
    rw [tokensItems, tokensItems, htokens] at ht
    exact absurd (List.cons.inj ht).1 hne
  | item :: items, item' :: items' =>
    rw [tokensItems, tokensItems, List.append_assoc, List.append_assoc] at ht
    obtain ⟨rfl, hmore⟩ := tokens_inj item item' h.1 h'.1 ht
    obtain ⟨rfl, hts⟩ := tokensNextItems_inj items items' h.2 h'.2 hmore
    exact ⟨rfl, hts⟩

theorem tokensNextItems_inj (items items' : List Document) (h : FiniteItems items)
    (h' : FiniteItems items') (ht : tokensNextItems items ++ ts = tokensNextItems items' ++ ts') :
    items = items' ∧ ts = ts' := by
  match items, items' with
  | [], [] => exact ⟨rfl, (List.cons.inj ht).2⟩
  | [], item' :: items' => cases (List.cons.inj ht).1
  | item :: items, [] => cases (List.cons.inj ht).1
  | item :: items, item' :: items' =>
    rw [tokensNextItems, tokensNextItems, List.cons_append, List.cons_append, List.append_assoc,
      List.append_assoc] at ht
    obtain ⟨rfl, hmore⟩ := tokens_inj item item' h.1 h'.1 (List.cons.inj ht).2
    obtain ⟨rfl, hts⟩ := tokensNextItems_inj items items' h.2 h'.2 hmore
    exact ⟨rfl, hts⟩

theorem tokensMembers_inj (members members' : List (Bytes × Document))
    (h : FiniteMembers members) (h' : FiniteMembers members')
    (ht : tokensMembers members ++ ts = tokensMembers members' ++ ts') :
    members = members' ∧ ts = ts' := by
  match members, members' with
  | [], [] => exact ⟨rfl, (List.cons.inj ht).2⟩
  | [], (key', doc') :: members' => cases (List.cons.inj ht).1
  | (key, doc) :: members, [] => cases (List.cons.inj ht).1
  | (key, doc) :: members, (key', doc') :: members' =>
    simp only [tokensMembers, List.cons_append, List.append_assoc, List.cons.injEq,
      Token.valueString.injEq, true_and] at ht
    obtain ⟨rfl, ht⟩ := ht
    obtain ⟨rfl, hmore⟩ := tokens_inj doc doc' h.1 h'.1 ht
    obtain ⟨rfl, hts⟩ := tokensNextMembers_inj members members' h.2 h'.2 hmore
    exact ⟨rfl, hts⟩

theorem tokensNextMembers_inj (members members' : List (Bytes × Document))
    (h : FiniteMembers members) (h' : FiniteMembers members')
    (ht : tokensNextMembers members ++ ts = tokensNextMembers members' ++ ts') :
    members = members' ∧ ts = ts' := by
  match members, members' with
  | [], [] => exact ⟨rfl, (List.cons.inj ht).2⟩
  | [], (key', doc') :: members' => cases (List.cons.inj ht).1
  | (key, doc) :: members, [] => cases (List.cons.inj ht).1
  | (key, doc) :: members, (key', doc') :: members' =>
    simp only [tokensNextMembers, List.cons_append, List.append_assoc, List.cons.injEq,
      Token.valueString.injEq, true_and] at ht
    obtain ⟨rfl, ht⟩ := ht
    obtain ⟨rfl, hmore⟩ := tokens_inj doc doc' h.1 h'.1 ht
    obtain ⟨rfl, hts⟩ := tokensNextMembers_inj members members' h.2 h'.2 hmore
    exact ⟨rfl, hts⟩
end

end Document

/-- The bytes are a text of `doc`. A byte order mark may come first, and a NUL ends the text. -/
def JsonText (strtod : Bytes → Double) (doc : Document) (body : Bytes) : Prop :=
  doc.Finite ∧ ∃ bom text tail, body = bom ++ (text ++ tail) ∧
    (bom = [] ∨ bom = [0xEF, 0xBB, 0xBF]) ∧ Spelled strtod doc.tokens text ∧ Ends tail

variable {strtod : Bytes → Double}

theorem jsonText_iff : JsonText strtod doc body ↔
    doc.Finite ∧
      ((Lexer.ofText body).tokens strtod).map Prod.fst = doc.tokens ++ [.endOfInput] := by
  rw [JsonText, Lexer.tokens_iff strtod doc.separated]

theorem Lexer.tokens_end {lx : Lexer} {t : Token} (ht : t.isLast = true)
    (h : (lx.tokens strtod).map Prod.fst = ts ++ t :: more) : more = [] := by
  induction ts generalizing lx with
  | nil =>
    by_cases hlast : (lx.scan strtod).1.isLast = true
    · rw [tokens_last hlast] at h
      exact (List.cons.inj h).2.symm
    · rw [tokens_next (by simpa using hlast)] at h
      rw [(List.cons.inj h).1] at hlast
      exact absurd ht hlast
  | cons t' ts ih =>
    by_cases hlast : (lx.scan strtod).1.isLast = true
    · rw [tokens_last hlast] at h
      cases ts <;> cases (List.cons.inj h).2
    · rw [tokens_next (by simpa using hlast)] at h
      exact ih (List.cons.inj h).2

namespace Json

/-- On a text the parser reports the events of the text and returns its value. -/
theorem parse_text (h : JsonText strtod doc body) :
    parse strtod body = ⟨callbackDepths 0 doc.events, .ok doc.value⟩ := by
  obtain ⟨hfinite, htokens⟩ := jsonText_iff.1 h
  obtain ⟨last, rest, hrest, hvalue⟩ := doc.parseValue_tokens hfinite htokens []
    (.uninitialized, Lexer.ofText body)
  obtain ⟨lx, rest, rfl, _⟩ := map_fst_cons hrest
  rw [stateEvaluation_nil, Saxed.after, List.append_nil] at hvalue
  obtain ⟨depths, hdom⟩ := doc.foldl_saxEvents {}
  have hdepths := DomParser.depths_foldl {} doc.saxEvents
  rw [doc.parseEvent_saxEvents] at hdepths
  rw [parse, hvalue]
  dsimp only
  rw [hdepths, hdom]
  rfl

theorem text_of_parse (h : (parse strtod body).result = .ok j) :
    ∃ doc, JsonText strtod doc body ∧ doc.value = j := by
  have hend : ∃ last lx rest, (parseValue [] (.uninitialized, Lexer.ofText body)
      ((Lexer.ofText body).tokens strtod)).2 = .ok (last, (.endOfInput, lx) :: rest) := by
    rw [parse] at h
    dsimp only at h
    cases hvalue : (parseValue [] (.uninitialized, Lexer.ofText body)
        ((Lexer.ofText body).tokens strtod)).2 with
    | error e =>
      rw [hvalue] at h
      cases h
    | ok after =>
      rw [hvalue] at h
      obtain ⟨last, _ | ⟨⟨token, lx⟩, rest⟩⟩ := after
      · cases h
      · cases token with
        | endOfInput => exact ⟨last, lx, rest, rfl⟩
        | _ => cases h
  obtain ⟨last, lx, rest, hvalue⟩ := hend
  obtain ⟨doc, ts, htokens, hfinite, rfl⟩ := readsValue_of_parseValue.1 hvalue
  rw [List.map_cons] at htokens
  have hrest := Lexer.tokens_end rfl htokens
  rw [hrest] at htokens
  have htext : JsonText strtod doc body := jsonText_iff.2 ⟨hfinite, htokens⟩
  rw [parse_text htext] at h
  exact ⟨doc, htext, Except.ok.inj h⟩

theorem parse_ok_iff (strtod : Bytes → Double) (body : Bytes) (j : Json) :
    (parse strtod body).result = .ok j ↔ ∃ doc, JsonText strtod doc body ∧ doc.value = j := by
  constructor
  · exact text_of_parse
  · rintro ⟨doc, htext, rfl⟩
    rw [parse_text htext]

end Json

/-- The syntax tree of a text. -/
noncomputable def Json.document (strtod : Bytes → Double) (body : Bytes) : Option Document :=
  open Classical in
  if h : ∃ doc, JsonText strtod doc body then some h.choose else none

theorem Json.document_some (h : Json.document strtod body = some doc) :
    JsonText strtod doc body := by
  rw [Json.document] at h
  split_ifs at h with htext
  obtain rfl := Option.some.inj h
  exact htext.choose_spec

theorem Json.document_none (h : Json.document strtod body = none) :
    ¬ ∃ doc, JsonText strtod doc body := by
  rw [Json.document] at h
  split_ifs at h with htext
  exact htext

/-- The parser of the library is one of the kind that the guard of the nesting depth relies on. -/
theorem Json.callbackParser (strtod : Bytes → Double) (to_chars : Double → Bytes) :
    CallbackParser (Json.library strtod to_chars) (Json.document strtod) := by
  constructor
  · intro body doc h
    exact Json.parse_text (Json.document_some h)
  · intro body h
    rcases hr : (Json.parse strtod body).result with e | j
    · exact ⟨e, hr⟩
    · obtain ⟨doc, htext, _⟩ := Json.text_of_parse hr
      exact absurd ⟨doc, htext⟩ (Json.document_none h)

theorem jsonText_unique (h : JsonText strtod doc body) (h' : JsonText strtod doc' body) :
    doc = doc' := by
  obtain ⟨hfinite, htokens⟩ := jsonText_iff.1 h
  obtain ⟨hfinite', htokens'⟩ := jsonText_iff.1 h'
  exact (doc.tokens_inj doc' hfinite hfinite' (htokens.symm.trans htokens')).1

theorem Json.document_eq_some : Json.document strtod body = some doc ↔ JsonText strtod doc body := by
  constructor
  · exact Json.document_some
  · intro h
    cases hd : Json.document strtod body with
    | none => exact absurd ⟨doc, h⟩ (Json.document_none hd)
    | some doc' => rw [jsonText_unique h (Json.document_some hd)]

theorem parseRequestJson_library (strtod : Bytes → Double) (to_chars : Double → Bytes)
    (body : Bytes) (j : Json) : parseRequestJson (Json.library strtod to_chars) body = .ok j ↔
      ∃ doc, JsonText strtod doc body ∧ (doc.depth : Int) ≤ MAX_JSON_NESTING_DEPTH ∧
        doc.value = j := by
  rw [parseRequestJson_ok_iff (Json.callbackParser strtod to_chars)]
  simp only [Json.document_eq_some]

/-- The bodies that a request may have: the texts of JSON whose values lie no deeper than the limit,
each of exactly one syntax tree, whose value the request gets. -/
theorem parseRequestJson_accepts (strtod : Bytes → Double) (to_chars : Double → Bytes)
    (body : Bytes) :
    (∀ j, parseRequestJson (Json.library strtod to_chars) body = .ok j ↔
        ∃ doc, JsonText strtod doc body ∧ (doc.depth : Int) ≤ MAX_JSON_NESTING_DEPTH ∧
          doc.value = j) ∧
      ∀ doc doc', JsonText strtod doc body → JsonText strtod doc' body → doc = doc' := by
  constructor
  · exact parseRequestJson_library strtod to_chars body
  · intro doc doc'
    exact jsonText_unique

end OnnxruntimeServer
