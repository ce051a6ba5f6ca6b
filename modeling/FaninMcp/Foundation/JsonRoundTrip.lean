import FaninMcp.Foundation.JsonDecode
import Mathlib.Data.Bool.AllAny

/-!
# Printed JSON is read back

The text of a value starts with a scalar that says what it is and is followed
by one that ends it, so the decoder recovers the value. Each string of a value
stands in its text, escaped and between quotes.
-/

set_option autoImplicit false

namespace Foundation.JsonText
open Foundation.RustText

section RoundTrip

theorem skipSpace_cons {c : Char} (h : isJsonSpace c = false) (cs : Text) :
    skipSpace (c::cs) = c::cs := by
  simp [skipSpace, h]

theorem expect_same {c : Char} (h : isJsonSpace c = false) (rest : Text) :
    expect c (c::rest) = some rest := by
  simp [expect, skipSpace_cons h]

theorem expect_other {c d : Char} (hd : isJsonSpace d = false) (h : d ≠ c) (rest : Text) :
    expect c (d::rest) = none := by
  simp [expect, skipSpace_cons hd, h]

theorem number_ne_nil (n : NumberText) : n.text ≠ [] := by
  intro h
  have hv := n.valid
  rw [h] at hv
  revert hv
  decide

theorem number_chars (n : NumberText) {c : Char} (h : c ∈ n.text) : isNumberChar c = true := by
  have hv := n.valid
  simp only [isNumber, Bool.and_eq_true, List.all_eq_true] at hv
  exact hv.1.1.1 c h

def Stops (rest : Text) : Prop := ∀ c cs, rest = c::cs → isNumberChar c = false

theorem stops_cons {c : Char} (h : isNumberChar c = false) (cs : Text) : Stops (c::cs) := by
  intro d ds heq
  rw [← (List.cons.inj heq).1]
  exact h

theorem number_read (n : NumberText) {rest : Text} (h : Stops rest) :
    number (n.text ++ rest) = some (.num n, rest) := by
  have htake : (n.text ++ rest).takeWhile isNumberChar = n.text := by
    rw [List.takeWhile_append_of_pos fun c hc => number_chars n hc]
    cases rest with
    | nil => simp
    | cons c cs => simp [h c cs rfl]
  have hdrop : (n.text ++ rest).dropWhile isNumberChar = rest := by
    rw [List.dropWhile_append_of_pos fun c hc => number_chars n hc]
    cases rest with
    | nil => simp
    | cons c cs => simp [h c cs rfl]
  simp [number, htake, hdrop, n.valid]

theorem render_head (json : Json) : ∃ c cs, render json = c::cs ∧ isJsonSpace c = false ∧
    c ≠ ']' ∧ c ≠ '}' := by
  match json with
  | .null => exact ⟨_, _, rfl, by decide, by decide, by decide⟩
  | .bool true => exact ⟨_, _, rfl, by decide, by decide, by decide⟩
  | .bool false => exact ⟨_, _, rfl, by decide, by decide, by decide⟩
  | .str s => exact ⟨'"', _, rfl, by decide, by decide, by decide⟩
  | .arr items => exact ⟨'[', _, by rw [render], by decide, by decide, by decide⟩
  | .obj fields => exact ⟨'\x7b', _, by rw [render], by decide, by decide, by decide⟩
  | .num n =>
    obtain ⟨c, cs, hcs⟩ := List.exists_cons_of_ne_nil (number_ne_nil n)
    have hc := number_chars n (c := c) (by simp [hcs])
    refine ⟨c, cs, by rw [render, hcs], ?_, ?_, ?_⟩
    · cases hs : isJsonSpace c
      · rfl
      · simp only [isJsonSpace, Bool.or_eq_true, beq_iff_eq] at hs
        rcases hs with ((rfl | rfl) | rfl) | rfl <;> exact absurd hc (by decide)
    · rintro rfl
      exact absurd hc (by decide)
    · rintro rfl
      exact absurd hc (by decide)

theorem scalar_number (n : NumberText) {rest : Text} (h : Stops rest) :
    scalar (n.text ++ rest) = some (.num n, rest) := by
  have hhead : ∀ d ds, isNumberChar d = false → (d::ds).isPrefixOf (n.text ++ rest) = false := by
    intro d ds hd
    obtain ⟨c, cs, hcs⟩ := List.exists_cons_of_ne_nil (number_ne_nil n)
    have hc := number_chars n (c := c) (by simp [hcs])
    have hne : d ≠ c := by
      rintro rfl
      rw [hd] at hc
      exact Bool.noConfusion hc
    simp [hcs, List.isPrefixOf, hne]
  rw [scalar, if_neg, if_neg, if_neg, number_read n h]
  · rw [show "false".toList = 'f'::"alse".toList from rfl, hhead 'f' _ (by decide)]
    exact Bool.noConfusion
  · rw [show "true".toList = 't'::"rue".toList from rfl, hhead 't' _ (by decide)]
    exact Bool.noConfusion
  · rw [show "null".toList = 'n'::"ull".toList from rfl, hhead 'n' _ (by decide)]
    exact Bool.noConfusion

theorem quote_append (s rest : Text) : quote s ++ rest = '"' :: (escape s ++ '"'::rest) := by
  simp [quote]

theorem key_read (s rest : Text) :
    (expect '"' (quote s ++ rest)).bind stringBody = some (s, rest) := by
  rw [quote_append, expect_same (by decide), Option.bind_some, stringBody_quoted]

theorem renderItems_cons (item next : Json) (more : List Json) :
    renderItems (item::next::more) = render item ++ ',' :: renderItems (next::more) := by
  rw [renderItems]
  simp

theorem renderFields_cons (key : Text) (item : Json) (next : Text × Json) (more : JsonObject) :
    renderFields ((key, item)::next::more) =
      quote key ++ ':' :: render item ++ ',' :: renderFields (next::more) := by
  rw [renderFields]
  simp

/-- This much fuel reads back any printed text it is enough for. -/
structure ReadsBack (fuel : ℕ) : Prop where
  value : ∀ json rest, 2*(render json).length ≤ fuel → Stops rest →
    value fuel (render json ++ rest) = some (json, rest)
  items : ∀ item more rest, 2*(renderItems (item::more)).length + 1 ≤ fuel →
    items fuel (renderItems (item::more) ++ rest) = some (item::more, rest)
  members : ∀ field more rest, 2*(renderFields (field::more)).length + 1 ≤ fuel →
    members fuel (renderFields (field::more) ++ rest) = some (field::more, rest)

theorem number_render (n : NumberText) (fuel : ℕ) {rest : Text} (hs : Stops rest) :
    value (fuel+1) (n.text ++ rest) = some (.num n, rest) := by
  obtain ⟨c, cs, hcs⟩ := List.exists_cons_of_ne_nil (number_ne_nil n)
  have hc := number_chars n (c := c) (by simp [hcs])
  have hother : ∀ d, isNumberChar d = false → c ≠ d := by
    rintro d hd rfl
    rw [hd] at hc
    exact Bool.noConfusion hc
  have hspace : isJsonSpace c = false := by
    simp [isJsonSpace, hother ' ' (by decide), hother '\n' (by decide), hother '\r' (by decide),
      hother '\t' (by decide)]
  have hread := scalar_number n hs
  rw [hcs, List.cons_append] at hread ⊢
  rw [value, skipSpace_cons hspace]
  simp [hother '"' (by decide), hother '[' (by decide), hother '\x7b' (by decide), hread]

theorem value_render {fuel : ℕ} (ih : ReadsBack fuel) {json : Json} {rest : Text}
    (hf : 2*(render json).length ≤ fuel+1) (hs : Stops rest) :
    value (fuel+1) (render json ++ rest) = some (json, rest) := by
  cases json with
  | null => rfl
  | bool b => cases b <;> rfl
  | num n => exact number_render n fuel hs
  | str s =>
    rw [render, quote_append, value, skipSpace_cons (by decide)]
    simp [stringBody_quoted]
  | arr items =>
    rw [render, List.cons_append, value, skipSpace_cons (by decide)]
    cases items with
    | nil => simp [renderItems, expect_same (show isJsonSpace ']' = false by decide)]
    | cons item more =>
      have hnone : expect ']' (renderItems (item::more) ++ rest) = none := by
        obtain ⟨d, ds, hd, hspace, hne, _⟩ := render_head item
        cases more <;> simp [renderItems, hd, expect_other hspace hne]
      rw [render, List.length_cons] at hf
      simp [hnone, ih.items item more rest (by omega)]
  | obj fields =>
    rw [render, List.cons_append, value, skipSpace_cons (by decide)]
    cases fields with
    | nil => simp [renderFields, expect_same (show isJsonSpace '}' = false by decide)]
    | cons field more =>
      have hnone : expect '}' (renderFields (field::more) ++ rest) = none := by
        cases more <;>
          simp [renderFields, quote, expect_other (show isJsonSpace '"' = false by decide)]
      rw [render, List.length_cons] at hf
      simp [hnone, ih.members field more rest (by omega)]

theorem items_render {fuel : ℕ} (ih : ReadsBack fuel) {item : Json} {more : List Json} {rest : Text}
    (hf : 2*(renderItems (item::more)).length + 1 ≤ fuel+1) :
    items (fuel+1) (renderItems (item::more) ++ rest) = some (item::more, rest) := by
  rw [items]
  cases more with
  | nil =>
    simp only [renderItems, List.length_append, List.length_singleton] at hf
    have hread := ih.value item (']'::rest) (by omega) (stops_cons (by decide) _)
    simp [renderItems, hread, expect_same (show isJsonSpace ']' = false by decide),
      expect_other (show isJsonSpace ']' = false by decide) (show ']' ≠ ',' by decide)]
  | cons next more =>
    rw [renderItems_cons] at hf ⊢
    simp only [List.length_append, List.length_cons] at hf
    have hread := ih.value item (',' :: (renderItems (next::more) ++ rest))
      (by omega) (stops_cons (by decide) _)
    have hmore := ih.items next more rest (by omega)
    simp [hread, hmore, expect_same (show isJsonSpace ',' = false by decide)]

theorem members_render {fuel : ℕ} (ih : ReadsBack fuel) {field : Text × Json} {more : JsonObject}
    {rest : Text} (hf : 2*(renderFields (field::more)).length + 1 ≤ fuel+1) :
    members (fuel+1) (renderFields (field::more) ++ rest) = some (field::more, rest) := by
  obtain ⟨key, item⟩ := field
  rw [members]
  cases more with
  | nil =>
    simp only [renderFields, List.length_append, List.length_cons, List.length_nil] at hf
    have hkey := key_read key (':' :: (render item ++ '}'::rest))
    have hread := ih.value item ('}'::rest) (by omega) (stops_cons (by decide) _)
    simp [renderFields, hkey, hread, expect_same (show isJsonSpace ':' = false by decide),
      expect_same (show isJsonSpace '}' = false by decide),
      expect_other (show isJsonSpace '}' = false by decide) (show '}' ≠ ',' by decide)]
  | cons next more =>
    rw [renderFields_cons] at hf ⊢
    simp only [List.length_append, List.length_cons] at hf
    have hkey := key_read key (':' :: (render item ++ ',' :: (renderFields (next::more) ++ rest)))
    have hread := ih.value item (',' :: (renderFields (next::more) ++ rest))
      (by omega) (stops_cons (by decide) _)
    have hmore := ih.members next more rest (by omega)
    simp [hkey, hread, hmore, expect_same (show isJsonSpace ':' = false by decide),
      expect_same (show isJsonSpace ',' = false by decide)]

theorem readsBack (fuel : ℕ) : ReadsBack fuel := by
  induction fuel with
  | zero =>
    refine ⟨fun json _ h _ => ?_, fun _ _ _ h => by omega, fun _ _ _ h => by omega⟩
    obtain ⟨c, cs, hhead, _⟩ := render_head json
    rw [hhead, List.length_cons] at h
    omega
  | succ fuel ih =>
    exact ⟨fun _ _ h hs => value_render ih h hs, fun _ _ _ h => items_render ih h,
      fun _ _ _ h => members_render ih h⟩

theorem parse_render (json : Json) {space : Text} (h : ∀ c ∈ space, isJsonSpace c = true) :
    parse (render json ++ space) = some json := by
  have hstops : Stops space := by
    rintro c cs rfl
    have := h c (by simp)
    simp only [isJsonSpace, Bool.or_eq_true, beq_iff_eq] at this
    rcases this with ((rfl | rfl) | rfl) | rfl <;> decide
  have hskip : skipSpace space = [] := List.dropWhile_eq_nil_iff.mpr h
  rw [parse, (readsBack _).value json space (by simp; omega) hstops]
  simp [hskip]

theorem parse_rendered (json : Json) : parse (render json) = some json := by
  have hread := parse_render json (show ∀ c ∈ [], isJsonSpace c = true by simp)
  rwa [List.append_nil] at hread

theorem render_injective {a b : Json} (h : render a = render b) : a = b := by
  have ha := parse_rendered a
  rw [h, parse_rendered b] at ha
  exact (Option.some.inj ha).symm

instance : DecidableEq Json := fun a b =>
  decidable_of_iff (render a = render b) ⟨render_injective, congrArg render⟩

end RoundTrip

/-- A text of quoted strings, with no quote outside of them. -/
inductive Printed : Text → List Text → Prop
  | nil : Printed [] []
  | outside {c : Char} {text : Text} {xs : List Text} : c ≠ '"' → Printed text xs →
      Printed (c::text) xs
  | quoted {x text : Text} {xs : List Text} : Printed text xs → Printed (quote x ++ text) (x::xs)

section Printing

theorem printed_outside {left : Text} (h : '"' ∉ left) {text : Text} {xs : List Text}
    (hp : Printed text xs) : Printed (left ++ text) xs := by
  induction left with
  | nil => exact hp
  | cons c left ih =>
    rw [List.mem_cons, not_or] at h
    exact .outside (Ne.symm h.1) (ih h.2)

mutual

theorem printed_render : ∀ (json : Json) {text : Text} {xs : List Text}, Printed text xs →
    Printed (render json ++ text) (strings json ++ xs)
  | .null, _, _, h => printed_outside (by decide) h
  | .bool true, _, _, h => printed_outside (by decide) h
  | .bool false, _, _, h => printed_outside (by decide) h
  | .num n, _, _, h => by
    rw [render]
    exact printed_outside (fun hin => absurd (number_chars n hin) (by decide)) h
  | .str s, _, _, h => by
    rw [render]
    exact .quoted h
  | .arr items, _, _, h => by
    rw [render, strings]
    exact .outside (by decide) (printed_items items h)
  | .obj fields, _, _, h => by
    rw [render, strings]
    exact .outside (by decide) (printed_fields fields h)

theorem printed_items : ∀ (items : List Json) {text : Text} {xs : List Text}, Printed text xs →
    Printed (renderItems items ++ text) (itemStrings items ++ xs)
  | [], _, _, h => by
    rw [renderItems, itemStrings]
    exact .outside (by decide) h
  | [item], _, _, h => by
    rw [renderItems, itemStrings, itemStrings, List.append_assoc, List.append_nil]
    exact printed_render item (.outside (by decide) h)
  | item::next::more, _, _, h => by
    rw [renderItems_cons, itemStrings, List.append_assoc, List.append_assoc, List.cons_append]
    exact printed_render item (.outside (by decide) (printed_items (next::more) h))

theorem printed_fields : ∀ (fields : JsonObject) {text : Text} {xs : List Text}, Printed text xs →
    Printed (renderFields fields ++ text) (fieldStrings fields ++ xs)
  | [], _, _, h => by
    rw [renderFields, fieldStrings]
    exact .outside (by decide) h
  | [(key, item)], _, _, h => by
    rw [renderFields, fieldStrings, fieldStrings, List.append_nil]
    simp only [List.append_assoc, List.cons_append, List.nil_append]
    exact .quoted (.outside (by decide) (printed_render item (.outside (by decide) h)))
  | (key, item)::next::more, _, _, h => by
    rw [renderFields_cons, fieldStrings]
    simp only [List.append_assoc, List.cons_append]
    exact .quoted (.outside (by decide) (printed_render item
      (.outside (by decide) (printed_fields (next::more) h))))

end

theorem quote_within {text : Text} {xs : List Text} (h : Printed text xs) {x : Text} (hx : x ∈ xs) :
    quote x <:+: text := by
  induction h with
  | nil => cases hx
  | outside _ _ ih => exact (ih hx).trans (List.suffix_cons _ _).isInfix
  | quoted _ ih =>
    rcases List.mem_cons.mp hx with rfl | hx
    · exact (List.prefix_append _ _).isInfix
    · exact (ih hx).trans (List.suffix_append _ _).isInfix

theorem escape_append (s t : Text) : escape (s ++ t) = escape s ++ escape t := by
  simp [escape]

theorem escape_verbatim {s : Text} (h : ∀ c ∈ s, Verbatim c) : escape s = s := by
  induction s with
  | nil => rfl
  | cons c cs ih =>
    have hcs := ih fun d hd => h d (by simp [hd])
    rw [escape] at hcs
    rw [escape, List.flatMap_cons, escapeChar_verbatim (h c (by simp)), hcs]
    rfl

theorem stringBody_escape_append (s rest : Text) :
    stringBody (escape s ++ rest) = (stringBody rest).map fun r => (s ++ r.1, r.2) := by
  induction s with
  | nil => simp [escape]
  | cons c cs ih =>
    have hcons : escape (c::cs) = escapeChar c ++ escape cs := rfl
    rw [hcons, List.append_assoc, stringBody_escapeChar, ih]
    cases stringBody rest <;> rfl

/-- An escaped text that a literal goes on with is what some of its string is escaped to. -/
theorem piece_of_escape {x z rest tail : Text} (h : escape x ++ '"'::tail = escape z ++ rest) :
    ∃ w, x = z ++ w ∧ rest = escape w ++ '"'::tail := by
  have hx := stringBody_quoted x tail
  rw [h, stringBody_escape_append] at hx
  obtain ⟨⟨w, after⟩, hw, heq⟩ := Option.map_eq_some_iff.mp hx
  obtain ⟨rfl, rfl⟩ := Prod.mk.inj heq
  rw [escape_append, List.append_assoc] at h
  exact ⟨w, rfl, (List.append_cancel_left h).symm⟩

theorem infix_quote {t x : Text} (ht : ∀ c ∈ t, Verbatim c) (h : t <:+: x) : t <:+: quote x := by
  obtain ⟨left, right, rfl⟩ := h
  refine ⟨'"' :: escape left, escape right ++ ['"'], ?_⟩
  simp [quote, escape_append, escape_verbatim ht]

theorem escapeChar_printable (c : Char) : ∀ d ∈ escapeChar c, 32 ≤ d.toNat := by
  have hdigit : ∀ n < 16, 32 ≤ (hexDigit n).toNat := by decide
  rw [escapeChar]
  split_ifs with hq hb h8 h9 h10 h12 h13 h32
  iterate 7 exact List.all_iff_forall_prop.mp (by decide)
  · simp [hdigit (c.toNat/16) (by omega), hdigit (c.toNat%16) (by omega)]
  · simpa using h32

theorem escape_printable {s : Text} {d : Char} (h : d ∈ escape s) : 32 ≤ d.toNat := by
  obtain ⟨c, _, hd⟩ := List.mem_flatMap.mp h
  exact escapeChar_printable c d hd

theorem quote_printable {s : Text} {d : Char} (h : d ∈ quote s) : 32 ≤ d.toNat := by
  simp only [quote, List.cons_append, List.mem_cons, List.mem_append, List.not_mem_nil, or_false] at h
  rcases h with rfl | h | rfl
  · decide
  · exact escape_printable h
  · decide

theorem name_printable {name : Text} (h : (name.all fun c => 32 ≤ c.toNat) = true) {c : Char}
    (hc : c ∈ name) : 32 ≤ c.toNat := List.all_iff_forall_prop.mp h c hc

theorem number_printable (n : NumberText) {c : Char} (h : c ∈ n.text) : 32 ≤ c.toNat := by
  have hc := number_chars n h
  simp only [isNumberChar, Bool.or_eq_true, beq_iff_eq] at hc
  rcases hc with ((((hdigit | rfl) | rfl) | rfl) | rfl) | rfl
  · have hzero : 32 ≤ '0'.toNat := by decide
    exact hzero.trans (Char.isDigit_iff_toNat.mp hdigit).1
  all_goals decide

mutual

theorem render_printable : ∀ (json : Json) {c : Char}, c ∈ render json → 32 ≤ c.toNat
  | .null, _, h => name_printable (by decide) h
  | .bool true, _, h => name_printable (by decide) h
  | .bool false, _, h => name_printable (by decide) h
  | .num n, _, h => number_printable n h
  | .str _, _, h => quote_printable h
  | .arr items, _, h => by
    rw [render] at h
    rcases List.mem_cons.mp h with rfl | h
    · decide
    · exact renderItems_printable items h
  | .obj fields, _, h => by
    rw [render] at h
    rcases List.mem_cons.mp h with rfl | h
    · decide
    · exact renderFields_printable fields h

theorem renderItems_printable : ∀ (items : List Json) {c : Char}, c ∈ renderItems items → 32 ≤ c.toNat
  | [], _, h => by
    obtain rfl := List.mem_singleton.mp h
    decide
  | [item], _, h => by
    rw [renderItems, List.mem_append, List.mem_singleton] at h
    rcases h with h | rfl
    · exact render_printable item h
    · decide
  | item::next::more, _, h => by
    rw [renderItems_cons, List.mem_append, List.mem_cons] at h
    rcases h with h | rfl | h
    · exact render_printable item h
    · decide
    · exact renderItems_printable (next::more) h

theorem renderFields_printable : ∀ (fields : JsonObject) {c : Char}, c ∈ renderFields fields →
    32 ≤ c.toNat
  | [], _, h => by
    obtain rfl := List.mem_singleton.mp h
    decide
  | [(key, item)], _, h => by
    simp only [renderFields, List.mem_append, List.mem_cons, List.not_mem_nil, or_false] at h
    rcases h with (h | rfl | h) | rfl
    · exact quote_printable h
    · decide
    · exact render_printable item h
    · decide
  | (key, item)::next::more, _, h => by
    simp only [renderFields_cons, List.mem_append, List.mem_cons] at h
    rcases h with (h | rfl | h) | rfl | h
    · exact quote_printable h
    · decide
    · exact render_printable item h
    · decide
    · exact renderFields_printable (next::more) h

end

theorem newline_not_mem_render (json : Json) : '\n' ∉ render json := fun h =>
  absurd (render_printable json h) (by decide)

end Printing

end Foundation.JsonText
