import FaninMcp.ConfigModel
import FaninMcp.Foundation.JsonRoundTrip
import FaninMcp.StructuredLog

/-!
# Server names in the log

A field is recorded as a string, or as the text it shows, and what is shown is
read as JSON first. A server name of letters, digits and dashes may be such a
text: a keyword or a number, and then it is no string in the log.
-/

set_option autoImplicit false

namespace FaninMcp.ServerNames
open Foundation Foundation.RustText Foundation.JsonText FaninMcp.ConfigModel
  FaninMcp.StructuredLog

/-- What `serde_json` reads as a value: the texts of JSON and no others, and
numbers where they are in range. -/
structure ReadsJson (fromStr : Text → Option Json) (inRange : NumberText → Prop) : Prop where
  null : ∀ text, parse text = some .null → fromStr text = some .null
  bool : ∀ text b, parse text = some (.bool b) → fromStr text = some (.bool b)
  number : ∀ text n, parse text = some (.num n) → inRange n → ∃ m, fromStr text = some (.num m)
  out_of_range : ∀ text n, parse text = some (.num n) → ¬ inRange n → fromStr text = none
  other : ∀ text, parse text = none → fromStr text = none

def keywords : List Text := ["null".toList, "true".toList, "false".toList]

section Words

theorem serverNameChar_plain {c : Char} (h : isServerNameChar c = true) :
    isJsonSpace c = false ∧ c ≠ '"' ∧ c ≠ '[' ∧ c ≠ '\x7b' := by
  refine ⟨?_, ?_, ?_, ?_⟩
  · rw [← Bool.not_eq_true]
    intro hspace
    simp only [isJsonSpace, Bool.or_eq_true, beq_iff_eq] at hspace
    rcases hspace with ((rfl | rfl) | rfl) | rfl <;> exact absurd h (by decide)
  · rintro rfl
    exact absurd h (by decide)
  · rintro rfl
    exact absurd h (by decide)
  · rintro rfl
    exact absurd h (by decide)

/-- A scalar is read from the front, and one that is all of the text is a
keyword or a number. -/
theorem scalar_cases {text rest : Text} {json : Json} (h : scalar text = some (json, rest)) :
    rest <:+ text ∧ (rest = [] → text ∈ keywords ∨ isNumber text = true) := by
  have hkeyword : ∀ word ∈ keywords, word.isPrefixOf text = true → text.drop word.length = rest →
      rest <:+ text ∧ (rest = [] → text ∈ keywords ∨ isNumber text = true) := by
    rintro word hword hpre rfl
    obtain ⟨after, rfl⟩ := List.isPrefixOf_iff_prefix.mp hpre
    rw [List.drop_left]
    refine ⟨List.suffix_append word after, ?_⟩
    rintro rfl
    exact Or.inl (by rwa [List.append_nil])
  rw [scalar] at h
  split_ifs at h with hnull htrue hfalse
  · exact hkeyword _ (by decide) hnull (Prod.mk.inj (Option.some.inj h)).2
  · exact hkeyword _ (by decide) htrue (Prod.mk.inj (Option.some.inj h)).2
  · exact hkeyword _ (by decide) hfalse (Prod.mk.inj (Option.some.inj h)).2
  · rw [number] at h
    split_ifs at h with hnumber
    obtain ⟨-, rfl⟩ := Prod.mk.inj (Option.some.inj h)
    refine ⟨List.dropWhile_suffix _, fun hempty => Or.inr ?_⟩
    rwa [List.takeWhile_eq_self_iff.mpr (List.dropWhile_eq_nil_iff.mp hempty)] at hnumber

variable {name : Text} (hname : ∀ c ∈ name, isServerNameChar c = true)
include hname

theorem skipSpace_word : skipSpace name = name := by
  cases name with
  | nil => rfl
  | cons c cs =>
    rw [skipSpace, List.dropWhile_cons_of_neg]
    rw [(serverNameChar_plain (hname c (by simp))).1]
    decide

theorem word_of_parse {json : Json} (h : parse name = some json) :
    name ∈ keywords ∨ isNumber name = true := by
  cases name with
  | nil => cases h
  | cons c cs =>
    obtain ⟨-, hquote, hbracket, hbrace⟩ := serverNameChar_plain (hname c (by simp))
    have hvalue : value (2*(c::cs).length + 1) (c::cs) = scalar (c::cs) := by
      rw [value, skipSpace_word hname]
      simp only [if_neg hquote, if_neg hbracket, if_neg hbrace]
    rw [parse, hvalue] at h
    cases hscalar : scalar (c::cs) with
    | none =>
      rw [hscalar] at h
      cases h
    | some r =>
      obtain ⟨hsuffix, hwhole⟩ := scalar_cases hscalar
      have hrest : skipSpace r.2 = r.2 := skipSpace_word fun d hd => hname d (hsuffix.subset hd)
      rw [hscalar] at h
      simp only [hrest] at h
      split_ifs at h with hempty
      exact hwhole hempty

end Words

section Reading
variable {fromStr : Text → Option Json} {inRange : NumberText → Prop}

def NotRead (inRange : NumberText → Prop) (name : Text) : Prop :=
  name ∉ keywords ∧ ∀ h : isNumber name = true, ¬ inRange ⟨name, h⟩

theorem parse_number {name : Text} (h : isNumber name = true) :
    parse name = some (.num ⟨name, h⟩) := parse_rendered (.num ⟨name, h⟩)

theorem keyword_read (hfrom : ReadsJson fromStr inRange) {name : Text} (h : name ∈ keywords) :
    ∃ json, fromStr name = some json ∧ json ≠ .str name := by
  simp only [keywords, List.mem_cons, List.not_mem_nil, or_false] at h
  rcases h with rfl | rfl | rfl
  · exact ⟨.null, hfrom.null _ (parse_rendered .null), by simp⟩
  · exact ⟨.bool true, hfrom.bool _ _ (parse_rendered (.bool true)), by simp⟩
  · exact ⟨.bool false, hfrom.bool _ _ (parse_rendered (.bool false)), by simp⟩

/-- Shown and read again, a name stays the string it is unless it is read as something else. -/
theorem record_debug_iff (hfrom : ReadsJson fromStr inRange) {name : Text}
    (hname : ∀ c ∈ name, isServerNameChar c = true) :
    record fromStr (.debug name) = .str name ↔ NotRead inRange name := by
  have hread : ∀ {json}, fromStr name = some json → json ≠ .str name →
      record fromStr (.debug name) ≠ .str name := by
    intro json hjson hne
    rw [record, hjson]
    exact hne
  constructor
  · intro h
    refine ⟨fun hkeyword => ?_, fun hnumber hrange => ?_⟩
    · obtain ⟨json, hjson, hne⟩ := keyword_read hfrom hkeyword
      exact hread hjson hne h
    · obtain ⟨m, hm⟩ := hfrom.number name _ (parse_number hnumber) hrange
      exact hread hm (by simp) h
  · rintro ⟨hkeyword, hnumber⟩
    have hnone : fromStr name = none := by
      by_cases hnum : isNumber name = true
      · exact hfrom.out_of_range name _ (parse_number hnum) (hnumber hnum)
      · refine hfrom.other name (Option.eq_none_iff_forall_ne_some.mpr fun json hjson => ?_)
        exact (word_of_parse hname hjson).elim hkeyword hnum
    rw [record, hnone]
    rfl

end Reading

section Events

theorem get_insert (key : Text) (item : Json) (object : JsonObject) (k : Text) :
    get (insert key item object) k = if key = k then some item else get object k := by
  induction object with
  | nil =>
    by_cases h : key = k <;> simp [StructuredLog.insert, JsonText.get, h]
  | cons field rest ih =>
    obtain ⟨other, old⟩ := field
    rw [StructuredLog.insert]
    by_cases heq : key = other
    · subst heq
      by_cases h : key = k <;> simp [JsonText.get, h]
    · rw [if_neg heq]
      by_cases hlt : key < other
      · rw [if_pos hlt]
        by_cases h : key = k <;> simp [JsonText.get, h]
      · rw [if_neg hlt]
        by_cases h : other = k
        · simp [JsonText.get, h, show key ≠ k from fun hk => heq (hk.trans h.symm)]
        · simpa [JsonText.get, h] using ih

def serverKey : Text := "server".toList

variable (fromStr : Text → Option Json)

theorem get_spans (spans : List Span) (object : JsonObject) :
    get (spans.foldl insertSpan object) serverKey = get object serverKey := by
  induction spans generalizing object with
  | nil => rfl
  | cons span spans ih =>
    rw [List.foldl_cons, ih, insertSpan]
    split
    · rfl
    · split_ifs
      · rfl
      · rw [get_insert, if_neg]
        simp [serverKey]

theorem get_server (level : Level) (target : Text) (before after : List (Text × FieldValue))
    (spans : List Span) (value : FieldValue) (h : ∀ field ∈ after, field.1 ≠ serverKey) :
    get (eventObject fromStr ⟨level, target, before ++ (serverKey, value)::after, spans⟩) serverKey =
      some (record fromStr value) := by
  have hafter : ∀ object, get (after.foldl (fun object field =>
      insert field.1 (record fromStr field.2) object) object) serverKey = get object serverKey := by
    intro object
    induction after generalizing object with
    | nil => rfl
    | cons field after ih =>
      rw [List.foldl_cons, ih fun f hf => h f (by simp [hf]), get_insert, if_neg (h field (by simp))]
  rw [eventObject, get_spans, get_insert, if_neg (by decide), get_insert, if_neg (by decide),
    List.foldl_append, List.foldl_cons, hafter, get_insert, if_pos rfl]

/-- Whatever else is recorded, the event's line is an object whose `server` is this string. -/
def Carries (name : Text) (value : FieldValue) : Prop :=
  ∀ level target before after spans, (∀ field ∈ after, field.1 ≠ serverKey) →
    ∃ object, parse (formatEvent fromStr
      ⟨level, target, before ++ (serverKey, value)::after, spans⟩) = some (.obj object) ∧
      get object serverKey = some (.str name)

theorem carries_iff {name : Text} {value : FieldValue} :
    Carries fromStr name value ↔ record fromStr value = .str name := by
  constructor
  · intro h
    obtain ⟨object, hparse, hget⟩ := h .info [] [] [] [] (by simp)
    rw [decode_event] at hparse
    obtain rfl := Json.obj.inj (Option.some.inj hparse)
    rw [get_server fromStr .info [] [] [] [] value (by simp)] at hget
    exact Option.some.inj hget
  · intro h level target before after spans hafter
    exact ⟨_, decode_event, by rw [get_server fromStr _ _ _ _ _ _ hafter, h]⟩

/-- Recorded as a string a server name is that string in the log. Recorded as
what it shows it is exactly if it is no keyword and no number in range. -/
theorem server_field_exact {fromStr : Text → Option Json} {inRange : NumberText → Prop}
    (hfrom : ReadsJson fromStr inRange) {name : Text} (hname : validateServerName name = .ok ()) :
    Carries fromStr name (.str name) ∧
      (Carries fromStr name (.debug name) ↔ NotRead inRange name) := by
  refine ⟨(carries_iff fromStr).mpr rfl, (carries_iff fromStr).trans ?_⟩
  exact record_debug_iff hfrom (validateServerName_ok.mp hname).2

end Events

theorem readsJson_parse : ReadsJson parse fun _ => True :=
  ⟨fun _ h => h, fun _ _ h => h, fun _ n h _ => ⟨n, h⟩, fun _ _ _ h => absurd trivial h,
    fun _ h => h⟩

theorem server_field_exact_morph : Carries parse "morph-2".toList (.str "morph-2".toList) ∧
    (Carries parse "morph-2".toList (.debug "morph-2".toList) ↔
      NotRead (fun _ => True) "morph-2".toList) :=
  server_field_exact readsJson_parse rfl

def NamesAgree (fromStr : Text → Option Json) : Prop :=
  ∀ name, validateServerName name = .ok () →
    Carries fromStr name (.str name) ∧ Carries fromStr name (.debug name)

/-- The name `true` is logged as a truth value. -/
theorem name_true_differs :
    ¬ ∀ fromStr inRange, ReadsJson fromStr inRange → NamesAgree fromStr := by
  intro h
  have hcarries := (h parse (fun _ => True) readsJson_parse "true".toList rfl).2
  have hread := (@record_debug_iff parse _ readsJson_parse "true".toList
    (List.all_eq_true.mp (by decide))).mp ((carries_iff parse).mp hcarries)
  exact hread.1 (by decide)

end FaninMcp.ServerNames
