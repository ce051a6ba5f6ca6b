import FaninMcp.Foundation.JsonScan
import FaninMcp.Foundation.LossyUtf8
import FaninMcp.Foundation.TextMasking
import FaninMcp.Redaction
import Mathlib.Data.Bool.AllAny

/-!
# The structured log file

An event is rendered as one line of JSON, and the line is redacted as text on
its way to the file. A secret that escaping rewrites is not in the line as it
was registered, so it passes the redaction and comes out when the line is read.
-/

set_option autoImplicit false

namespace FaninMcp.StructuredLog
open Foundation.RustText Foundation.JsonText Foundation.LossyUtf8 Foundation.TextMasking Redaction

inductive Level where
  | trace
  | debug
  | info
  | warn
  | error

def Level.asStr : Level → Text
  | .trace => "TRACE".toList
  | .debug => "DEBUG".toList
  | .info => "INFO".toList
  | .warn => "WARN".toList
  | .error => "ERROR".toList

def toAsciiLowercase (text : Text) : Text := text.map Char.toLower

/-- The value of a field, as the event records it. A finite float comes with the
number it is printed as, errors and debug values with the text they show. -/
inductive FieldValue where
  | f64 (number : Option NumberText)
  | i64 (n : ℤ)
  | u64 (n : ℕ)
  | bool (b : Bool)
  | str (s : Text)
  | error (shown : Text)
  | debug (rendered : Text)

/-- A span the event is in, with its formatted fields if there are any. -/
structure Span where
  name : Text
  fields : Option Text

structure Event where
  level : Level
  target : Text
  fields : List (Text × FieldValue)
  spans : List Span

/-- `Map::insert`, on a map that keeps its keys sorted. -/
def insert (key : Text) (item : Json) : JsonObject → JsonObject
  | [] => [(key, item)]
  | (other, old)::rest =>
    if key = other then (key, item)::rest
    else if key < other then (key, item)::(other, old)::rest
    else (other, old) :: insert key item rest

section Formatter
-- `serde_json::from_str`
variable (fromStr : Text → Option Json)

def record : FieldValue → Json
  | .f64 (some number) => .num number
  | .f64 none => .null
  | .i64 n => .num (intNumber n)
  | .u64 n => .num (intNumber n)
  | .bool b => .bool b
  | .str s => .str s
  | .error shown => .str shown
  | .debug rendered => (fromStr rendered).getD (.str rendered)

def insertSpan (object : JsonObject) (span : Span) : JsonObject :=
  match span.fields with
  | none => object
  | some fields =>
    if fields.isEmpty then object
    else insert ("span.".toList ++ span.name) (.str fields) object

def eventObject (event : Event) : JsonObject :=
  let fields := event.fields.foldl (fun object field => insert field.1 (record fromStr field.2) object) []
  let object := insert "level".toList (.str (toAsciiLowercase event.level.asStr)) fields
  let object := insert "target".toList (.str event.target) object
  event.spans.foldl insertSpan object

def formatEvent (event : Event) : Text := render (.obj (eventObject fromStr event)) ++ ['\n']

end Formatter

/-- `RedactingFileWriter::write`: what is appended to the file. -/
def fileWrite (order : List Text) (buf : Bytes) : Bytes :=
  match fromUtf8 buf with
  | some s => utf8 (redact order s)
  | none => buf

def decodeLine (line : Bytes) : Option Json := (fromUtf8 line).bind parse

/-- The event's line holds no registered secret in any string it is read back with. -/
def DecodesRedacted (fromStr : Text → Option Json) (S : SecretSet) (event : Event) : Prop :=
  ∀ order, IterationOf order S.values → ∀ json,
    decodeLine (fileWrite order (utf8 (formatEvent fromStr event))) = some json →
      ∀ x ∈ strings json, ∀ t ∈ S.values, ¬ t <:+: x

def Plain (t : Text) : Prop := ∀ c ∈ t, Verbatim c

instance (t : Text) : Decidable (Plain t) := List.decidableBAll Verbatim t

/-- The text occurs neither in the rendered line nor in a string of the event. -/
def Absent (fromStr : Text → Option Json) (event : Event) (t : Text) : Prop :=
  ¬ t <:+: formatEvent fromStr event ∧ ∀ x ∈ strings (.obj (eventObject fromStr event)), ¬ t <:+: x

/-- Escaping rewrites no secret that occurs in the event, and no secret can
overlap the marker unless there is nothing to replace. -/
def Redactable (fromStr : Text → Option Json) (S : SecretSet) (event : Event) : Prop :=
  (∀ t ∈ S.values, Plain t ∨ Absent fromStr event t) ∧
  ((∀ t ∈ S.values, ¬ t <:+: formatEvent fromStr event) ∨ ∀ t ∈ S.values, ClearOf marker t)

section Masks

theorem marker_verbatim : Plain marker := by decide

theorem redact_masked {Maskable : Char → Prop} {order : List Text}
    (hclear : ∀ t ∈ order, ClearOf marker t) {a b : Text}
    (h : ∀ t ∈ order, (∀ c ∈ t, Maskable c) ∨ ¬ t <:+: a) (hm : Masked marker Maskable a b) :
    Masked marker Maskable a (redact order b) := by
  induction order generalizing b with
  | nil => exact hm
  | cons t order ih =>
    have ht := hclear t (by simp)
    rw [redact_cons (clearOf_ne_nil ht)]
    refine ih (fun u hu => hclear u (by simp [hu])) (fun u hu => h u (by simp [hu])) ?_
    rcases h t (by simp) with hmask | habsent
    · exact masked_replace ht hmask hm
    · rwa [replace_absent marker fun hin => habsent (infix_of_masked ht hm hin)]

theorem redact_free {order : List Text} (h : ∀ t ∈ order, ClearOf marker t) (text : Text) :
    ∀ t ∈ order, ¬ t <:+: redact order text := by
  induction order generalizing text with
  | nil => simp
  | cons s order ih =>
    have hs := h s (by simp)
    have hrest := fun t ht => h t (List.mem_cons_of_mem s ht)
    rw [redact_cons (clearOf_ne_nil hs)]
    intro t ht
    rcases List.mem_cons.mp ht with rfl | ht
    · have hm : Masked marker (fun _ => True) (replace t marker text)
          (redact order (replace t marker text)) :=
        redact_masked hrest (fun _ _ => Or.inl fun _ _ => trivial) (masked_refl _)
      exact fun hin => not_infix_replace hs text (infix_of_masked hs hm hin)
    · exact ih hrest _ t ht

end Masks

section Reading
variable {text line : Text}

/-- A scalar that may not be masked is kept, and one that may be begins a mask at most. -/
theorem masked_head {c : Char} {a b : Text} (hm : Masked marker Verbatim (c::a) b) :
    (∃ b', b = c::b' ∧ Masked marker Verbatim a b') ∨
      Verbatim c ∧ ∃ segment a' b', c::a = segment ++ a' ∧ segment ≠ [] ∧ Plain segment ∧
        b = marker ++ b' ∧ Masked marker Verbatim a' b' := by
  generalize heq : c::a = whole at hm
  cases hm with
  | nil => cases heq
  | keep d hm =>
    obtain ⟨rfl, rfl⟩ := List.cons.inj heq
    exact Or.inl ⟨_, rfl, hm⟩
  | @hide segment a' b' hne hseg hm =>
    refine Or.inr ⟨?_, segment, a', b', rfl, hne, hseg, rfl, hm⟩
    obtain ⟨d, ds, rfl⟩ := List.exists_cons_of_ne_nil hne
    exact (List.cons.inj heq).1 ▸ hseg d (by simp)

theorem masked_kept {c : Char} (hc : ¬ Verbatim c) {a b : Text}
    (hm : Masked marker Verbatim (c::a) b) : ∃ b', b = c::b' ∧ Masked marker Verbatim a b' := by
  rcases masked_head hm with h | ⟨h, _⟩
  · exact h
  · exact absurd h hc

theorem masked_or_bracket {c : Char} {a b : Text} (hm : Masked marker Verbatim (c::a) b) :
    (∃ b', b = c::b' ∧ Masked marker Verbatim a b') ∨ ∃ b', b = '['::b' := by
  rcases masked_head hm with h | ⟨_, _, _, b', _, _, _, rfl, _⟩
  · exact Or.inl h
  · exact Or.inr ⟨"REDACTED]".toList ++ b', rfl⟩

theorem masked_prefix (left right : Text) {a b : Text} (hlen : right.length = left.length)
    (hall : ∀ c ∈ right, c ≠ '[') (hm : Masked marker Verbatim (left ++ a) (right ++ b)) :
    right = left ∧ Masked marker Verbatim a b := by
  induction left generalizing right with
  | nil =>
    obtain rfl := List.length_eq_zero_iff.mp hlen
    exact ⟨rfl, hm⟩
  | cons c left ih =>
    cases right with
    | nil => cases hlen
    | cons d right =>
      rcases masked_or_bracket hm with ⟨b', hb, hm'⟩ | ⟨b', hb⟩
      · obtain ⟨rfl, hrest⟩ := List.cons.inj hb
        rw [← hrest] at hm'
        obtain ⟨rfl, hab⟩ :=
          ih right (by simpa using hlen) (fun e he => hall e (by simp [he])) hm'
        exact ⟨rfl, hab⟩
      · exact absurd (List.cons.inj hb).1 (hall d (by simp))

theorem escapedChar_some {text : Text} {r : Char × ℕ} (h : escapedChar text = some r) :
    ∃ e rest, text = e::rest ∧ e ≠ '[' ∧
      (e = 'u' → ∃ digits more, rest = digits ++ more ∧ digits.length = 4 ∧ ∀ c ∈ digits, c ≠ '[') := by
  cases text with
  | nil => cases h
  | cons e rest =>
    refine ⟨e, rest, rfl, ?_, ?_⟩
    · rintro rfl
      have hnone : escapedChar ('['::rest) = none := rfl
      rw [hnone] at h
      cases h
    · rintro rfl
      rw [escapedChar, if_pos rfl] at h
      cases hhex : hex4 rest with
      | none => simp [hhex] at h
      | some code =>
        obtain ⟨digits, more, heq, hlen, hall⟩ := hex4_digits hhex
        refine ⟨digits, more, heq, hlen, ?_⟩
        rintro c hc rfl
        exact absurd (hall _ hc) (by decide)

theorem masked_escape {c : Char} (hc : ¬ Verbatim c) {a b : Text}
    (hm : Masked marker Verbatim (escapeChar c ++ a) b) {r : Text × Text} (h : stringBody b = some r) :
    ∃ b', b = escapeChar c ++ b' ∧ Masked marker Verbatim a b' := by
  have hkept : ∃ b', b = '\\'::b' := by
    rcases escapeChar_cases hc with ⟨e, heq, _⟩ | ⟨hi, lo, heq, _⟩ <;> rw [heq] at hm
    · exact (masked_kept (by decide) hm).imp fun _ h => h.1
    · exact (masked_kept (by decide) hm).imp fun _ h => h.1
  obtain ⟨b, rfl⟩ := hkept
  rw [stringBody_escape] at h
  obtain ⟨scalar, hscalar, _⟩ := Option.bind_eq_some_iff.mp h
  obtain ⟨e, rest, rfl, he, hu⟩ := escapedChar_some hscalar
  rcases escapeChar_cases hc with ⟨f, heq, _⟩ | ⟨hi, lo, heq, _⟩ <;> rw [heq] at hm ⊢
  · obtain ⟨hsame, hm'⟩ := masked_prefix ['\\', f] ['\\', e] rfl (by simp [he]) hm
    rw [← hsame]
    exact ⟨rest, rfl, hm'⟩
  · obtain ⟨hsame, hm'⟩ := masked_prefix ['\\', 'u'] ['\\', e] rfl (by simp [he]) hm
    obtain rfl : e = 'u' := by simpa using hsame
    obtain ⟨digits, more, rfl, hlen, hall⟩ := hu rfl
    obtain ⟨rfl, hab⟩ := masked_prefix ['0', '0', hi, lo] digits hlen hall hm'
    exact ⟨more, rfl, hab⟩

theorem stringBody_plain {left : Text} (h : Plain left) (text : Text) :
    stringBody (left ++ text) = (stringBody text).map fun r => (left ++ r.1, r.2) := by
  have hread := stringBody_escape_append left text
  rwa [escape_verbatim h] at hread

theorem masked_scalar {c : Char} {a b : Text} (hm : Masked marker Verbatim (escapeChar c ++ a) b)
    {r : Text × Text} (h : stringBody b = some r) :
    (∃ b', b = escapeChar c ++ b' ∧ Masked marker Verbatim a b') ∨
      ∃ segment a' b', escapeChar c ++ a = segment ++ a' ∧ segment ≠ [] ∧ Plain segment ∧
        b = marker ++ b' ∧ Masked marker Verbatim a' b' := by
  by_cases hc : Verbatim c
  · rw [escapeChar_verbatim hc] at hm ⊢
    exact (masked_head hm).imp_right And.right
  · exact Or.inl (masked_escape hc hm h)

/-- A literal that is read in the masked text was one before: its string is the
masked one of before, and it is written as that string is. -/
theorem masked_string (x : Text) {text body y rest : Text}
    (hm : Masked marker Verbatim (escape x ++ '"'::text) body) (h : stringBody body = some (y, rest)) :
    Masked marker Verbatim x y ∧ Masked marker Verbatim text rest ∧ body = escape y ++ '"'::rest := by
  induction hn : x.length using Nat.strong_induction_on generalizing x body y with
  | _ n ih =>
    cases x with
    | nil =>
      obtain ⟨b', rfl, hm'⟩ := masked_kept (by decide) hm
      rw [stringBody_quote] at h
      obtain ⟨rfl, rfl⟩ := Prod.mk.inj (Option.some.inj h)
      exact ⟨.nil, hm', rfl⟩
    | cons c cs =>
      have hcons : ∀ cs, escape (c::cs) = escapeChar c ++ escape cs := fun _ => rfl
      rw [hcons, List.append_assoc] at hm
      rcases masked_scalar hm h with ⟨b', rfl, hm'⟩ | ⟨segment, a', b', heq, hne, hseg, rfl, hm'⟩
      · rw [stringBody_escapeChar] at h
        obtain ⟨⟨y, rest'⟩, hy, heq⟩ := Option.map_eq_some_iff.mp h
        obtain ⟨rfl, rfl⟩ := Prod.mk.inj heq
        obtain ⟨hx, hrest, rfl⟩ := ih _ (by simp [← hn]) cs hm' hy rfl
        exact ⟨.keep c hx, hrest, by rw [hcons, List.append_assoc]⟩
      · rw [← List.append_assoc, ← hcons, ← escape_verbatim hseg] at heq
        obtain ⟨z, hz, rfl⟩ := piece_of_escape heq
        rw [stringBody_plain marker_verbatim] at h
        obtain ⟨⟨y, rest'⟩, hy, heq⟩ := Option.map_eq_some_iff.mp h
        obtain ⟨rfl, rfl⟩ := Prod.mk.inj heq
        have hpos := List.length_pos_iff.mpr hne
        have hshort : z.length < n := by
          rw [← hn, hz, List.length_append]
          omega
        obtain ⟨hx, hrest, rfl⟩ := ih _ hshort z hm' hy rfl
        refine ⟨hz ▸ .hide hne hseg hx, hrest, ?_⟩
        rw [escape_append, escape_verbatim marker_verbatim, List.append_assoc]

theorem printed_strip {left text : Text} (h : '"' ∉ left) {xs : List Text}
    (hp : Printed (left ++ text) xs) : Printed text xs := by
  induction left with
  | nil => exact hp
  | cons c left ih =>
    rw [List.mem_cons, not_or] at h
    refine ih h.2 ?_
    generalize heq : c::left ++ text = whole at hp
    cases hp with
    | nil => cases heq
    | outside _ hp =>
      obtain ⟨_, rfl⟩ := List.cons.inj heq
      exact hp
    | quoted _ =>
      rw [quote_append] at heq
      exact absurd (List.cons.inj heq).1.symm h.1

theorem plain_no_quote {text : Text} (h : Plain text) : '"' ∉ text :=
  fun hin => absurd (h _ hin) (by decide)

theorem masked_literals {xs ys : List Text} (hp : Printed text xs)
    (hm : Masked marker Verbatim text line) (hl : Literals line ys) :
    ∀ y ∈ ys, (∃ x ∈ xs, Masked marker Verbatim x y) ∧ quote y <:+: line := by
  induction hn : text.length using Nat.strong_induction_on generalizing text line xs ys with
  | _ n ih =>
    cases hp with
    | nil =>
      generalize heq : ([] : Text) = whole at hm
      cases hm with
      | nil =>
        cases hl
        simp
      | keep _ _ => cases heq
      | hide hne _ _ => exact absurd (List.append_eq_nil_iff.mp heq.symm).1 hne
    | outside hc hp =>
      rcases masked_head hm with ⟨b', rfl, hm'⟩ | ⟨_, segment, a', b', heq, hne, hseg, rfl, hm'⟩
      · intro y hy
        obtain ⟨hx, hquote⟩ := ih _ (by simp [← hn]) hp hm' ((literals_outside hc).mp hl) rfl y hy
        exact ⟨hx, hquote.trans (List.suffix_cons _ _).isInfix⟩
      · intro y hy
        have hrest := printed_strip (plain_no_quote hseg) (heq ▸ Printed.outside hc hp)
        have hpos := List.length_pos_iff.mpr hne
        have hshort : a'.length < n := by
          rw [← hn, heq, List.length_append]
          omega
        obtain ⟨hx, hquote⟩ := ih _ hshort hrest hm'
          ((literals_append (plain_no_quote marker_verbatim)).mp hl) rfl y hy
        exact ⟨hx, hquote.trans (List.suffix_append _ _).isInfix⟩
    | @quoted x tail _ hp =>
      rw [quote_append] at hm hn
      obtain ⟨b', rfl, hm'⟩ := masked_kept (by decide) hm
      obtain ⟨z, rest, zs, hz, rfl, hl'⟩ := literals_quote hl
      obtain ⟨hx, hrest, rfl⟩ := masked_string _ hm' hz
      rw [← quote_append]
      intro y hy
      rcases List.mem_cons.mp hy with rfl | hy
      · exact ⟨⟨_, by simp, hx⟩, (List.prefix_append _ _).isInfix⟩
      · have hshort : tail.length < n := by
          simp only [List.length_cons, List.length_append] at hn
          omega
        obtain ⟨⟨x, hmem, hxy⟩, hquote⟩ := ih _ hshort hp hrest hl' rfl y hy
        exact ⟨⟨x, by simp [hmem], hxy⟩, hquote.trans (List.suffix_append _ _).isInfix⟩

end Reading

section Exactness
variable {fromStr : Text → Option Json} {S : SecretSet} {event : Event}

theorem decodeLine_write (order : List Text) :
    decodeLine (fileWrite order (utf8 (formatEvent fromStr event))) =
    parse (redact order (formatEvent fromStr event)) := by
  simp only [decodeLine, fileWrite, fromUtf8_utf8, Option.bind_some]

theorem printed_event : Printed (formatEvent fromStr event)
    (strings (.obj (eventObject fromStr event))) := by
  have h := printed_render (.obj (eventObject fromStr event))
    (.outside (show '\n' ≠ '"' by decide) .nil)
  rwa [List.append_nil] at h

theorem decode_event : parse (formatEvent fromStr event) = some (.obj (eventObject fromStr event)) :=
  parse_render _ (List.all_eq_true.mp (by decide))

theorem decode_untouched (h : ∀ t ∈ S.values, ¬ t <:+: formatEvent fromStr event) {order : List Text}
    (ho : IterationOf order S.values) :
    decodeLine (fileWrite order (utf8 (formatEvent fromStr event))) =
      some (.obj (eventObject fromStr event)) := by
  rw [decodeLine_write, redact_untouched (fun t ht => secret_ne_nil ((ho.mem t).mp ht))
    (fun t ht => Or.inr (h t ((ho.mem t).mp ht))), decode_event]

theorem decodes_of_untouched (h : ∀ t ∈ S.values, ¬ t <:+: formatEvent fromStr event)
    (hplain : ∀ t ∈ S.values, Plain t ∨ Absent fromStr event t) : DecodesRedacted fromStr S event := by
  intro order ho json hjson x hx t ht hin
  rw [decode_untouched h ho] at hjson
  obtain rfl := Option.some.inj hjson
  rcases hplain t ht with hplain | habsent
  · exact h t ht ((infix_quote hplain hin).trans (quote_within printed_event hx))
  · exact habsent.2 x hx hin

theorem decodes_of_clear (hclear : ∀ t ∈ S.values, ClearOf marker t)
    (hplain : ∀ t ∈ S.values, Plain t ∨ Absent fromStr event t) : DecodesRedacted fromStr S event := by
  intro order ho json hjson x hx t ht hin
  have hclear' : ∀ u ∈ order, ClearOf marker u := fun u hu => hclear u ((ho.mem u).mp hu)
  have hm : Masked marker Verbatim (formatEvent fromStr event) (redact order (formatEvent fromStr event)) :=
    redact_masked hclear' (fun u hu => (hplain u ((ho.mem u).mp hu)).imp_right And.left) (masked_refl _)
  rw [decodeLine_write] at hjson
  obtain ⟨⟨y, hy, hxy⟩, hquote⟩ := masked_literals printed_event hm (literals_parse hjson) x hx
  rcases hplain t ht with hplain | habsent
  · exact redact_free hclear' _ t ((ho.mem t).mpr ht) ((infix_quote hplain hin).trans hquote)
  · exact habsent.2 y hy (infix_of_masked (hclear t ht) hxy hin)

/-- A line decodes without secrets when it is redactable, and only then if it
holds none of them as registered. -/
theorem structured_log_redacts (fromStr : Text → Option Json) (S : SecretSet) (event : Event) :
    (Redactable fromStr S event → DecodesRedacted fromStr S event) ∧
    ((∀ t ∈ S.values, ¬ t <:+: formatEvent fromStr event) →
      (DecodesRedacted fromStr S event ↔ Redactable fromStr S event)) := by
  have hsafe : Redactable fromStr S event → DecodesRedacted fromStr S event := by
    rintro ⟨hplain, huntouched | hclear⟩
    · exact decodes_of_untouched huntouched hplain
    · exact decodes_of_clear hclear hplain
  refine ⟨hsafe, fun huntouched => ⟨fun h => ⟨fun t ht => Or.inr ⟨huntouched t ht, ?_⟩,
    Or.inl huntouched⟩, hsafe⟩⟩
  exact fun x hx => h _ (iterationOf_toList S.values) _
    (decode_untouched huntouched (iterationOf_toList S.values)) x hx t ht

end Exactness

section OneSecret

def messageEvent (message : Text) : Event :=
  ⟨.info, "fanin".toList, [("message".toList, .str message)], []⟩

theorem structured_log_redacts_token :
    DecodesRedacted (fun _ => none) (.only "k7".toList (by decide)) (messageEvent "id=k7".toList) := by
  refine (structured_log_redacts _ _ _).1 ⟨fun t ht => Or.inl ?_, Or.inr fun t ht => ?_⟩
  · obtain rfl := mem_only.mp ht
    exact (by decide : Plain "k7".toList)
  · obtain rfl := mem_only.mp ht
    exact clearOf_of_disjoint (by decide) marker_ne_nil
      (List.all_iff_forall_prop.mp (by decide))

/-- A secret with a quote in it is not found in the line, where the quote is
escaped, and is read back from it. -/
theorem quoted_secret_decoded : ¬ DecodesRedacted (fun _ => none)
    (.only "a\"b".toList (by decide)) (messageEvent "a\"b".toList) := by
  have hline : ∀ t ∈ (SecretSet.only "a\"b".toList (by decide)).values,
      ¬ t <:+: formatEvent (fun _ => none) (messageEvent "a\"b".toList) := by
    intro t ht
    obtain rfl := mem_only.mp ht
    decide
  intro h
  refine h _ (iterationOf_only (by decide)) _ (decode_untouched hline (iterationOf_only (by decide)))
    "a\"b".toList ?_ "a\"b".toList (mem_only.mpr rfl) List.infix_rfl
  decide

end OneSecret

end FaninMcp.StructuredLog
