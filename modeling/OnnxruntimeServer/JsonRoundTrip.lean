import OnnxruntimeServer.JsonText
import OnnxruntimeServer.NestedOptions

namespace OnnxruntimeServer
set_option autoImplicit true

namespace Json

mutual
/-- What a value is after it has been printed and read. An integer that is not negative is read as
an unsigned one, and a number that is not finite is printed as null. -/
def reread (j : Json) : Json :=
  match j with
  | .null => .null
  | .boolean b => .boolean b
  | .integer i => if i.toInt < 0 then .integer i else .unsigned (.ofNat i.toInt.toNat)
  | .unsigned n => .unsigned n
  | .float x => if x.isFinite then .float x else .null
  | .string s => .string s
  | .array items => .array (rereadItems items)
  | .object members => .object (rereadMembers members)
termination_by structural j

def rereadItems (items : List Json) : List Json :=
  match items with
  | [] => []
  | item :: items => reread item :: rereadItems items
termination_by structural items

def rereadMembers (members : List (Bytes × Json)) : List (Bytes × Json) :=
  match members with
  | [] => []
  | (key, value) :: members => (key, reread value) :: rereadMembers members
termination_by structural members
end

mutual
/-- Every object lists its members by their keys, as a map of the library does. -/
def KeysSorted (j : Json) : Prop :=
  match j with
  | .array items => KeysSortedItems items
  | .object members => members.Pairwise (·.1 < ·.1) ∧ KeysSortedMembers members
  | _ => True
termination_by structural j

def KeysSortedItems (items : List Json) : Prop :=
  match items with
  | [] => True
  | item :: items => KeysSorted item ∧ KeysSortedItems items
termination_by structural items

def KeysSortedMembers (members : List (Bytes × Json)) : Prop :=
  match members with
  | [] => True
  | (_, value) :: members => KeysSorted value ∧ KeysSortedMembers members
termination_by structural members
end

mutual
def AllFloats (p : Double → Prop) (j : Json) : Prop :=
  match j with
  | .float x => p x
  | .array items => AllFloatsItems p items
  | .object members => AllFloatsMembers p members
  | _ => True
termination_by structural j

def AllFloatsItems (p : Double → Prop) (items : List Json) : Prop :=
  match items with
  | [] => True
  | item :: items => AllFloats p item ∧ AllFloatsItems p items
termination_by structural items

def AllFloatsMembers (p : Double → Prop) (members : List (Bytes × Json)) : Prop :=
  match members with
  | [] => True
  | (_, value) :: members => AllFloats p value ∧ AllFloatsMembers p members
termination_by structural members
end

mutual
/-- The syntax tree of the text that a value is printed as. -/
def toDocument (j : Json) : Document :=
  match j with
  | .null => .scalar .null ⟨rfl, rfl⟩
  | .boolean b => .scalar (.boolean b) ⟨rfl, rfl⟩
  | .integer i =>
    if i.toInt < 0 then .scalar (.integer i) ⟨rfl, rfl⟩
    else .scalar (.unsigned (.ofNat i.toInt.toNat)) ⟨rfl, rfl⟩
  | .unsigned n => .scalar (.unsigned n) ⟨rfl, rfl⟩
  | .float x => if x.isFinite then .scalar (.float x) ⟨rfl, rfl⟩ else .scalar .null ⟨rfl, rfl⟩
  | .string s => .scalar (.string s) ⟨rfl, rfl⟩
  | .array items => .array (toDocumentItems items)
  | .object members => .object (toDocumentMembers members)
termination_by structural j

def toDocumentItems (items : List Json) : List Document :=
  match items with
  | [] => []
  | item :: items => toDocument item :: toDocumentItems items
termination_by structural items

def toDocumentMembers (members : List (Bytes × Json)) : List (Bytes × Document) :=
  match members with
  | [] => []
  | (key, value) :: members => (key, toDocument value) :: toDocumentMembers members
termination_by structural members
end

/-- A finite number is printed as a text that is read back as this number. -/
def Printed (strtod : Bytes → Double) (to_chars : Double → Bytes) (x : Double) : Prop :=
  x.isFinite = true → NumberText .float (to_chars x) ∧ strtod (to_chars x) = x

mutual
theorem finite_toDocument (j : Json) : j.toDocument.Finite := by
  cases j with
  | integer i =>
    rw [toDocument]
    split_ifs <;> rfl
  | float x =>
    rw [toDocument]
    split_ifs with hx
    · exact if_pos hx
    · rfl
  | boolean b => cases b <;> rfl
  | array items => exact finite_toDocumentItems items
  | object members => exact finite_toDocumentMembers members
  | _ => rfl

theorem finite_toDocumentItems (items : List Json) :
    Document.FiniteItems (toDocumentItems items) := by
  match items with
  | [] => trivial
  | item :: items => exact ⟨finite_toDocument item, finite_toDocumentItems items⟩

theorem finite_toDocumentMembers (members : List (Bytes × Json)) :
    Document.FiniteMembers (toDocumentMembers members) := by
  match members with
  | [] => trivial
  | (key, value) :: members => exact ⟨finite_toDocument value, finite_toDocumentMembers members⟩
end

mutual
theorem nesting_toDocument (j : Json) : j.toDocument.nesting = j.nesting := by
  cases j with
  | integer i =>
    rw [toDocument]
    split_ifs <;> rfl
  | float x =>
    rw [toDocument]
    split_ifs <;> rfl
  | array items =>
    rw [toDocument, Document.nesting, nesting, nesting_toDocumentItems items]
  | object members =>
    rw [toDocument, Document.nesting, nesting, nesting_toDocumentMembers members]
  | _ => rfl

theorem nesting_toDocumentItems (items : List Json) :
    Document.nestingItems (toDocumentItems items) = nestingItems items := by
  match items with
  | [] => rfl
  | item :: items =>
    rw [toDocumentItems, Document.nestingItems, nestingItems, nesting_toDocument item,
      nesting_toDocumentItems items]

theorem nesting_toDocumentMembers (members : List (Bytes × Json)) :
    Document.nestingMembers (toDocumentMembers members) = nestingMembers members := by
  match members with
  | [] => rfl
  | (key, value) :: members =>
    rw [toDocumentMembers, Document.nestingMembers, nestingMembers, nesting_toDocument value,
      nesting_toDocumentMembers members]
end

theorem setMember_last {found : List (Bytes × ν)} (h : ∀ e ∈ found, e.1 < key) (value : ν) :
    setMember key value found = found ++ [(key, value)] := by
  induction found with
  | nil => rfl
  | cons e found ih =>
    have he := h e List.mem_cons_self
    rw [setMember, if_neg (fun hlt => List.lt_irrefl _ (List.lt_trans he hlt)),
      if_neg (by rintro rfl; exact List.lt_irrefl _ he),
      ih fun e' he' => h e' (List.mem_cons_of_mem _ he')]
    rfl

mutual
/-- The text that a value is printed as has the value that is read. -/
theorem value_toDocument (j : Json) (h : j.KeysSorted) : j.toDocument.value = j.reread := by
  cases j with
  | integer i =>
    rw [toDocument, reread]
    split_ifs <;> rfl
  | float x =>
    rw [toDocument, reread]
    split_ifs <;> rfl
  | array items =>
    rw [toDocument, Document.value, reread, value_toDocumentItems items h]
  | object members =>
    rw [toDocument, Document.value, reread,
      value_toDocumentMembers members h.2 h.1 [] (fun _ he => nomatch he)]
    rfl
  | _ => rfl

theorem value_toDocumentItems (items : List Json) (h : KeysSortedItems items) :
    Document.valueItems (toDocumentItems items) = rereadItems items := by
  match items with
  | [] => rfl
  | item :: items =>
    rw [toDocumentItems, Document.valueItems, rereadItems, value_toDocument item h.1,
      value_toDocumentItems items h.2]

theorem value_toDocumentMembers (members : List (Bytes × Json)) (h : KeysSortedMembers members)
    (hsorted : members.Pairwise (·.1 < ·.1)) (found : List (Bytes × Json))
    (hfound : ∀ e ∈ found, ∀ e' ∈ members, e.1 < e'.1) :
    Document.valueMembers (toDocumentMembers members) found = found ++ rereadMembers members := by
  match members with
  | [] => rw [rereadMembers, List.append_nil, toDocumentMembers, Document.valueMembers]
  | (key, value) :: members =>
    obtain ⟨hkey, hsorted⟩ := List.pairwise_cons.1 hsorted
    rw [toDocumentMembers, Document.valueMembers, value_toDocument value h.1,
      setMember_last (fun e he => hfound e he _ List.mem_cons_self),
      value_toDocumentMembers members h.2 hsorted, rereadMembers, List.append_assoc,
      List.singleton_append]
    intro e he e' he'
    rcases List.mem_append.1 he with he | he
    · exact hfound e he e' (List.mem_cons_of_mem _ he')
    · obtain rfl := List.mem_singleton.1 he
      exact hkey e' he'
end

variable {strtod : Bytes → Double} {to_chars : Double → Bytes}

theorem spelled_cons (ht : Lexeme strtod t text) (h : Spelled strtod ts more) :
    Spelled strtod (t :: ts) (text ++ more) := by
  have hcons : Spelled strtod (t :: ts) ([] ++ (text ++ more)) :=
    .cons (List.forall_mem_nil _) ht h
  exact hcons

theorem lexeme_dumpEscaped (strtod : Bytes → Double) (h : dumpEscaped s = .ok text) :
    Lexeme strtod (.valueString s) text := by
  obtain ⟨cs, t, rfl, ht, rfl⟩ := dumpEscaped_text h
  exact .valueString ht

theorem lexeme_integer (strtod : Bytes → Double) {i : Int64} (h : i.toInt < 0) :
    Lexeme strtod (.valueInteger i) (ascii (toString i.toInt)) := by
  rw [← numberToken_integer strtod i]
  exact .number (numberText_integer h)

theorem lexeme_unsigned (strtod : Bytes → Double) (n : UInt64) :
    Lexeme strtod (.valueUnsigned n) (ascii (toString n.toNat)) := by
  rw [← numberToken_unsigned strtod n]
  exact .number (numberText_unsigned n)

theorem toString_nonneg {i : Int64} (h : ¬ i.toInt < 0) :
    toString i.toInt = toString (UInt64.ofNat i.toInt.toNat).toNat := by
  have hmax := i.toInt_lt
  rw [UInt64.toNat_ofNat_of_lt' (by simp only [UInt64.size]; omega)]
  obtain ⟨n, hn⟩ := Int.eq_ofNat_of_zero_le (Int.not_lt.1 h)
  rw [hn]
  rfl

mutual
/-- The serializer prints a value as the tokens of its text, whatever is printed after it. -/
theorem spelled_dump (j : Json) (hfloats : j.AllFloats (Printed strtod to_chars))
    (h : j.dump (dumpNumber to_chars) = .ok text) (hs : Spelled strtod ts more) :
    Spelled strtod (j.toDocument.tokens ++ ts) (text ++ more) := by
  cases j with
  | null =>
    obtain rfl := Except.ok.inj h
    exact spelled_cons .literalNull hs
  | boolean b =>
    obtain rfl := Except.ok.inj h
    cases b with
    | true => exact spelled_cons .literalTrue hs
    | false => exact spelled_cons .literalFalse hs
  | integer i =>
    obtain rfl := Except.ok.inj h
    rw [toDocument]
    split_ifs with hi
    · exact spelled_cons (lexeme_integer strtod hi) hs
    · rw [toString_nonneg hi]
      exact spelled_cons (lexeme_unsigned strtod _) hs
  | unsigned n =>
    obtain rfl := Except.ok.inj h
    exact spelled_cons (lexeme_unsigned strtod n) hs
  | float x =>
    obtain rfl := Except.ok.inj h
    rw [toDocument, dumpNumber]
    split_ifs with hx
    · obtain ⟨htext, hvalue⟩ := hfloats hx
      have hlexeme : Lexeme strtod (.valueFloat (strtod (to_chars x))) (to_chars x) :=
        .number htext
      rw [hvalue] at hlexeme
      exact spelled_cons hlexeme hs
    · exact spelled_cons .literalNull hs
  | string s => exact spelled_cons (lexeme_dumpEscaped strtod h) hs
  | array items =>
    obtain ⟨items_text, hitems, h⟩ := bind_eq_ok.1 h
    obtain rfl := Except.ok.inj h
    have hspelled := spelled_dumpItems items hfloats hitems hs
    rw [List.append_assoc, List.append_assoc]
    exact spelled_cons .beginArray hspelled
  | object members =>
    obtain ⟨members_text, hmembers, h⟩ := bind_eq_ok.1 h
    obtain rfl := Except.ok.inj h
    have hspelled := spelled_dumpMembers members hfloats hmembers hs
    rw [List.append_assoc, List.append_assoc]
    exact spelled_cons .beginObject hspelled

theorem spelled_dumpItems (items : List Json)
    (hfloats : AllFloatsItems (Printed strtod to_chars) items)
    (h : dumpItems (dumpNumber to_chars) items = .ok text) (hs : Spelled strtod ts more) :
    Spelled strtod (Document.tokensItems (toDocumentItems items) ++ ts)
      (text ++ (ascii "]" ++ more)) := by
  match items with
  | [] =>
    obtain rfl := Except.ok.inj h
    have hend : Spelled strtod (.endArray :: ts) (ascii "]" ++ more) := spelled_cons .endArray hs
    exact hend
  | item :: items =>
    obtain ⟨item_text, hitem, h⟩ := bind_eq_ok.1 h
    obtain ⟨rest, hrest, h⟩ := bind_eq_ok.1 h
    obtain rfl := Except.ok.inj h
    have hmore := spelled_dumpItems items hfloats.2 hrest hs
    have hnext : Spelled strtod (Document.tokensNextItems (toDocumentItems items) ++ ts)
        ((if items.isEmpty then [] else ascii ",") ++ (rest ++ (ascii "]" ++ more))) := by
      cases items with
      | nil => exact hmore
      | cons item' items => exact spelled_cons .valueSeparator hmore
    have hspelled := spelled_dump item hfloats.1 hitem hnext
    rw [toDocumentItems, Document.tokensItems, List.append_assoc, List.append_assoc,
      List.append_assoc]
    exact hspelled

theorem spelled_dumpMembers (members : List (Bytes × Json))
    (hfloats : AllFloatsMembers (Printed strtod to_chars) members)
    (h : dumpMembers (dumpNumber to_chars) members = .ok text) (hs : Spelled strtod ts more) :
    Spelled strtod (Document.tokensMembers (toDocumentMembers members) ++ ts)
      (text ++ (ascii "\x7d" ++ more)) := by
  match members with
  | [] =>
    obtain rfl := Except.ok.inj h
    have hend : Spelled strtod (.endObject :: ts) (ascii "\x7d" ++ more) :=
      spelled_cons .endObject hs
    exact hend
  | (key, value) :: members =>
    obtain ⟨name, hname, h⟩ := bind_eq_ok.1 h
    obtain ⟨value_text, hvalue, h⟩ := bind_eq_ok.1 h
    obtain ⟨rest, hrest, h⟩ := bind_eq_ok.1 h
    obtain rfl := Except.ok.inj h
    have hmore := spelled_dumpMembers members hfloats.2 hrest hs
    have hnext : Spelled strtod (Document.tokensNextMembers (toDocumentMembers members) ++ ts)
        ((if members.isEmpty then [] else ascii ",") ++ (rest ++ (ascii "\x7d" ++ more))) := by
      cases members with
      | nil => exact hmore
      | cons member members => exact spelled_cons .valueSeparator hmore
    have hspelled := spelled_cons (lexeme_dumpEscaped strtod hname)
      (spelled_cons .nameSeparator (spelled_dump value hfloats.1 hvalue hnext))
    rw [toDocumentMembers, Document.tokensMembers, List.cons_append, List.cons_append]
    simp only [List.append_assoc]
    exact hspelled
end

theorem jsonText_dump {j : Json} (hfloats : j.AllFloats (Printed strtod to_chars))
    (h : j.dump (dumpNumber to_chars) = .ok text) : JsonText strtod j.toDocument text := by
  have hspelled := spelled_dump j hfloats h (.nil (List.forall_mem_nil _))
  rw [List.append_nil, List.append_nil] at hspelled
  refine ⟨finite_toDocument j, [], text, [], ?_, .inl rfl, hspelled, .inl rfl⟩
  rw [List.append_nil, List.nil_append]

theorem parse_of_dump {j : Json} (hsorted : j.KeysSorted)
    (hfloats : j.AllFloats (Printed strtod to_chars))
    (h : j.dump (dumpNumber to_chars) = .ok text) : (parse strtod text).result = .ok j.reread :=
  (parse_ok_iff strtod text _).2 ⟨_, jsonText_dump hfloats h, value_toDocument j hsorted⟩

theorem parseRequestJson_of_dump {j : Json} (hsorted : j.KeysSorted)
    (hfloats : j.AllFloats (Printed strtod to_chars))
    (h : j.dump (dumpNumber to_chars) = .ok text)
    (hdepth : (j.toDocument.depth : Int) ≤ MAX_JSON_NESTING_DEPTH) :
    parseRequestJson (library strtod to_chars) text = .ok j.reread :=
  (parseRequestJson_library strtod to_chars text _).2
    ⟨_, jsonText_dump hfloats h, hdepth, value_toDocument j hsorted⟩

/-- What the serializer prints the parser reads back, and a request of such a text is accepted when
the value is not nested too deep. -/
theorem parse_dump {j : Json} (hsorted : j.KeysSorted)
    (hfloats : j.AllFloats (Printed strtod to_chars))
    (h : j.dump (dumpNumber to_chars) = .ok text) :
    (parse strtod text).result = .ok j.reread ∧
      ((j.nesting : Int) ≤ MAX_JSON_NESTING_DEPTH →
        parseRequestJson (library strtod to_chars) text = .ok j.reread) := by
  refine ⟨parse_of_dump hsorted hfloats h, fun hnesting => ?_⟩
  have hdepth := j.toDocument.depth_le_nesting.1
  rw [nesting_toDocument] at hdepth
  exact parseRequestJson_of_dump hsorted hfloats h (by omega)

theorem three_lt_mant : 3 < 2 ^ 53 := by
  decide

def oneAndHalf : Double := .finite false ⟨3, three_lt_mant⟩ (-1)

theorem printed_oneAndHalf : Printed (fun _ => oneAndHalf) (fun _ => ascii "1.5") oneAndHalf := by
  intro _
  refine ⟨?_, rfl⟩
  have hfrac : FracText (ascii ".5") := ⟨0x35, [], rfl, by decide, List.forall_mem_nil _⟩
  have hint : IntText (ascii "1") :=
    .inr ⟨0x31, [], rfl, by decide, by decide, List.forall_mem_nil _⟩
  exact .float (.inl rfl) hint ⟨nofun, ascii ".5", [], rfl, .inr hfrac, .inl rfl⟩

def numbers : Json := .object [(ascii "data", .array [.integer 5, .float oneAndHalf, .float .nan])]

theorem numbers_sorted : numbers.KeysSorted :=
  ⟨List.pairwise_singleton _ _, ⟨trivial, trivial, trivial, trivial⟩, trivial⟩

theorem numbers_printed :
    numbers.AllFloats (Printed (fun _ => oneAndHalf) fun _ => ascii "1.5") :=
  ⟨⟨trivial, printed_oneAndHalf, nofun, trivial⟩, trivial⟩

theorem parse_dump_numbers :
    parseRequestJson (library (fun _ => oneAndHalf) fun _ => ascii "1.5")
        (ascii "\x7b\"data\":[5,1.5,null]\x7d") =
      .ok (.object [(ascii "data", .array [.unsigned 5, .float oneAndHalf, .null])]) := by
  exact (parse_dump numbers_sorted numbers_printed rfl).2 (by decide)

theorem depth_setMember_le (key : Bytes) (value : Json) (members : List (Bytes × Json)) :
    Document.depthMembers (toDocumentMembers (setMember key value members)) ≤
      max ((toDocument value).depth + 1) (Document.depthMembers (toDocumentMembers members)) := by
  induction members with
  | nil => exact le_rfl
  | cons e members ih =>
    rw [setMember]
    split_ifs with hlt heq
    · exact le_rfl
    · simp only [toDocumentMembers, Document.depthMembers]
      omega
    · simp only [toDocumentMembers, Document.depthMembers]
      omega

mutual
theorem depth_value_le (doc : Document) : (toDocument doc.value).depth ≤ doc.depth := by
  cases doc with
  | scalar j flat =>
    cases j with
    | integer i =>
      rw [Document.value, toDocument]
      split_ifs <;> exact le_rfl
    | float x =>
      rw [Document.value, toDocument]
      split_ifs <;> exact le_rfl
    | array items => cases flat.1
    | object members => cases flat.2
    | _ => exact le_rfl
  | array items => exact depth_valueItems_le items
  | object members =>
    have h := depth_valueMembers_le members []
    rw [toDocumentMembers, Document.depthMembers, Nat.zero_max] at h
    exact h

theorem depth_valueItems_le (items : List Document) :
    Document.depthItems (toDocumentItems (Document.valueItems items)) ≤
      Document.depthItems items := by
  match items with
  | [] => exact le_rfl
  | item :: items =>
    exact max_le_max (Nat.succ_le_succ (depth_value_le item)) (depth_valueItems_le items)

theorem depth_valueMembers_le (members : List (Bytes × Document)) (found : List (Bytes × Json)) :
    Document.depthMembers (toDocumentMembers (Document.valueMembers members found)) ≤
      max (Document.depthMembers (toDocumentMembers found)) (Document.depthMembers members) := by
  match members with
  | [] => exact le_max_left _ _
  | (key, doc) :: members =>
    have hdoc := depth_value_le doc
    have hmembers := depth_valueMembers_le members (setMember key doc.value found)
    have hset := depth_setMember_le key doc.value found
    rw [Document.valueMembers, Document.depthMembers]
    omega
end

theorem keysSortedMembers_iff {members : List (Bytes × Json)} :
    KeysSortedMembers members ↔ ∀ e ∈ members, e.2.KeysSorted := by
  induction members with
  | nil => simp [KeysSortedMembers]
  | cons e members ih =>
    rw [KeysSortedMembers, ih, List.forall_mem_cons]

mutual
theorem keysSorted_value (doc : Document) : doc.value.KeysSorted := by
  cases doc with
  | scalar j flat =>
    cases j with
    | array items => cases flat.1
    | object members => cases flat.2
    | _ => trivial
  | array items => exact keysSorted_valueItems items
  | object members =>
    obtain ⟨hsorted, hmembers⟩ := keysSorted_valueMembers members List.Pairwise.nil
      (List.forall_mem_nil fun e : Bytes × Json => e.2.KeysSorted)
    exact ⟨hsorted, keysSortedMembers_iff.2 hmembers⟩

theorem keysSorted_valueItems (items : List Document) :
    KeysSortedItems (Document.valueItems items) := by
  match items with
  | [] => trivial
  | item :: items => exact ⟨keysSorted_value item, keysSorted_valueItems items⟩

theorem keysSorted_valueMembers (members : List (Bytes × Document))
    {found : List (Bytes × Json)} (hsorted : found.Pairwise (·.1 < ·.1))
    (hfound : ∀ e ∈ found, e.2.KeysSorted) :
    (Document.valueMembers members found).Pairwise (·.1 < ·.1) ∧
      ∀ e ∈ Document.valueMembers members found, e.2.KeysSorted := by
  match members with
  | [] => exact ⟨hsorted, hfound⟩
  | (key, doc) :: members =>
    apply keysSorted_valueMembers members (pairwise_setMember hsorted key doc.value)
    intro e he
    rcases eq_or_mem_of_mem_setMember he with rfl | he
    · exact keysSorted_value doc
    · exact hfound e he
end

theorem utf8_of_spelled (h : Spelled strtod ts text) (hs : .valueString s ∈ ts) :
    validUtf8 s = true := by
  induction h with
  | nil hw => cases hs
  | cons hw ht h ih =>
    rcases List.mem_cons.1 hs with rfl | hs
    · generalize ht' : Token.valueString s = t at ht
      cases ht with
      | valueString htext =>
        obtain rfl := Token.valueString.inj ht'
        exact validUtf8_iff.2 ⟨_, rfl⟩
      | number hn =>
        have hnumber : (Token.valueString s).isNumber = true := by
          rw [ht']
          exact isNumber_numberToken strtod _ _
        cases hnumber
      | _ => cases ht'
    · exact ih hs

theorem textsMembers_iff {p : Bytes → Prop} {members : List (Bytes × Json)} :
    (∀ s ∈ textsMembers members, p s) ↔ ∀ e ∈ members, p e.1 ∧ ∀ s ∈ e.2.texts, p s := by
  induction members with
  | nil => exact ⟨fun _ => List.forall_mem_nil _, fun _ => List.forall_mem_nil _⟩
  | cons e members ih =>
    rw [textsMembers, List.cons_append, List.forall_mem_cons, List.forall_mem_append, ih,
      List.forall_mem_cons, and_assoc]

theorem mem_tokensNextItems (h : .valueString s ∈ Document.tokensItems items) :
    .valueString s ∈ Document.tokensNextItems items := by
  cases items with
  | nil => exact h
  | cons item items => exact List.mem_cons_of_mem _ h

theorem mem_tokensNextMembers {members : List (Bytes × Document)}
    (h : .valueString s ∈ Document.tokensMembers members) :
    .valueString s ∈ Document.tokensNextMembers members := by
  cases members with
  | nil => exact h
  | cons member members => exact List.mem_cons_of_mem _ h

mutual
theorem texts_value {p : Bytes → Prop} (doc : Document)
    (h : ∀ s, .valueString s ∈ doc.tokens → p s) : ∀ s ∈ doc.value.texts, p s := by
  cases doc with
  | scalar j flat =>
    cases j with
    | string s => exact List.forall_mem_singleton.2 (h s List.mem_cons_self)
    | array items => cases flat.1
    | object members => cases flat.2
    | _ => exact List.forall_mem_nil _
  | array items => exact texts_valueItems items fun s hs => h s (List.mem_cons_of_mem _ hs)
  | object members =>
    rw [Document.value, texts, textsMembers_iff]
    exact texts_valueMembers members (fun s hs => h s (List.mem_cons_of_mem _ hs))
      (List.forall_mem_nil _)

theorem texts_valueItems {p : Bytes → Prop} (items : List Document)
    (h : ∀ s, .valueString s ∈ Document.tokensItems items → p s) :
    ∀ s ∈ textsItems (Document.valueItems items), p s := by
  match items with
  | [] => exact List.forall_mem_nil _
  | item :: items =>
    rw [Document.valueItems, textsItems, List.forall_mem_append]
    constructor
    · exact texts_value item fun s hs => h s (List.mem_append_left _ hs)
    · exact texts_valueItems items
        fun s hs => h s (List.mem_append_right _ (mem_tokensNextItems hs))

theorem texts_valueMembers {p : Bytes → Prop} (members : List (Bytes × Document))
    {found : List (Bytes × Json)} (h : ∀ s, .valueString s ∈ Document.tokensMembers members → p s)
    (hfound : ∀ e ∈ found, p e.1 ∧ ∀ s ∈ e.2.texts, p s) :
    ∀ e ∈ Document.valueMembers members found, p e.1 ∧ ∀ s ∈ e.2.texts, p s := by
  match members with
  | [] => exact hfound
  | (key, doc) :: members =>
    apply texts_valueMembers members
    · intro s hs
      exact h s (List.mem_cons_of_mem _ (List.mem_cons_of_mem _
        (List.mem_append_right _ (mem_tokensNextMembers hs))))
    · intro e he
      rcases eq_or_mem_of_mem_setMember he with rfl | he
      · refine ⟨h key List.mem_cons_self, texts_value doc fun s hs => h s ?_⟩
        exact List.mem_cons_of_mem _ (List.mem_cons_of_mem _ (List.mem_append_left _ hs))
      · exact hfound e he
end

/-- What a request carries can be printed, and sent again where its numbers survive it: the request
of the printed text is accepted too. -/
theorem parseRequestJson_dump
    (h : parseRequestJson (library strtod to_chars) body = .ok j) :
    ∃ text, j.dump (dumpNumber to_chars) = .ok text ∧
      (j.AllFloats (Printed strtod to_chars) →
        parseRequestJson (library strtod to_chars) text = .ok j.reread) := by
  obtain ⟨doc, ⟨_, _, _, _, _, _, hspelled, _⟩, hdepth, rfl⟩ :=
    (parseRequestJson_library strtod to_chars body j).1 h
  obtain ⟨text, htext⟩ := (dump_texts (dumpNumber to_chars) doc.value).2
    (texts_value doc fun s => utf8_of_spelled hspelled)
  have hle := depth_value_le doc
  refine ⟨text, htext, ?_⟩
  intro hfloats
  exact parseRequestJson_of_dump (keysSorted_value doc) hfloats htext (by omega)

theorem parseRequestJson_dump_numbers :
    ∃ text, (Json.reread numbers).dump (dumpNumber fun _ => ascii "1.5") = .ok text ∧
      parseRequestJson (library (fun _ => oneAndHalf) fun _ => ascii "1.5") text =
        .ok numbers.reread := by
  have hbody : parseRequestJson (library (fun _ => oneAndHalf) fun _ => ascii "1.5")
      (ascii "\x7b\"data\":[5,1.5,null]\x7d") = .ok numbers.reread :=
    parseRequestJson_of_dump numbers_sorted numbers_printed rfl (by decide)
  obtain ⟨text, hdump, hparse⟩ := parseRequestJson_dump hbody
  exact ⟨text, hdump, hparse ⟨⟨trivial, printed_oneAndHalf, trivial, trivial⟩, trivial⟩⟩

/-- The library, where no number is read or printed. -/
def plainLib : JsonLibrary := library (fun _ => .nan) fun _ => []

def namesBody : Bytes := ascii "\x7b\"model\":\"m\",\"version\":\"1\"\x7d"

def namesJson : Json :=
  .object [(ascii "model", .string (ascii "m")), (ascii "version", .string (ascii "1"))]

theorem parse_namesBody (strtod : Bytes → Double) (to_chars : Double → Bytes) :
    parseRequestJson (library strtod to_chars) namesBody = .ok namesJson := by
  have hsorted : namesJson.KeysSorted := by
    refine ⟨?_, trivial, trivial, trivial⟩
    decide
  exact parseRequestJson_of_dump hsorted ⟨trivial, trivial, trivial⟩ rfl (by decide)

theorem parse_emptyBody (strtod : Bytes → Double) (to_chars : Double → Bytes) :
    parseRequestJson (library strtod to_chars) (ascii "\x7b\x7d") = .ok (.object []) :=
  parseRequestJson_of_dump (j := .object []) ⟨List.Pairwise.nil, trivial⟩ trivial rfl (by decide)

end Json
end OnnxruntimeServer
