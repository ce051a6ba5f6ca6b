import FaninMcp.Foundation.JsonRoundTrip

/-!
# Scanning JSON text

A scan over a text remembers only where it is: between string literals, in the
content of one, or within an escape. A text that is read as a value leads the
scan through all of its literals and back between them.
-/

set_option autoImplicit false

namespace Foundation.JsonText
open Foundation.RustText

inductive Place where
  | outside
  | content
  | escaped
  /-- Within a hexadecimal escape, with this many digits behind the next one. -/
  | hex (left : ℕ)
  | broken
  deriving DecidableEq

def advance : Place → Char → Place
  | .outside, c => if c = '"' then .content else if isOutsideChar c then .outside else .broken
  | .content, c =>
    if c = '"' then .outside
    else if c = '\\' then .escaped
    else if c.toNat < 32 then .broken
    else .content
  | .escaped, c =>
    if c = 'u' then .hex 3 else if (shortEscape c).isSome then .content else .broken
  | .hex 0, c => if (hexValue c).isSome then .content else .broken
  | .hex (left+1), c => if (hexValue c).isSome then .hex left else .broken
  | .broken, _ => .broken

def scan (place : Place) (text : Text) : Place := text.foldl advance place

section Scan

@[simp] theorem scan_nil (place : Place) : scan place [] = place := rfl

@[simp] theorem scan_cons (place : Place) (c : Char) (cs : Text) :
    scan place (c::cs) = scan (advance place c) cs := rfl

theorem scan_append (place : Place) (left right : Text) :
    scan place (left ++ right) = scan (scan place left) right := List.foldl_append

@[simp] theorem scan_broken (text : Text) : scan .broken text = .broken := by
  induction text with
  | nil => rfl
  | cons c cs ih => exact ih

theorem advance_outside {c : Char} (h : isOutsideChar c = true) : advance .outside c = .outside := by
  simp [advance, isOutsideChar_ne_quote h, h]

theorem advance_verbatim {c : Char} (h : Verbatim c) : advance .content c = .content := by
  obtain ⟨hq, hb, hc⟩ := h
  simp [advance, hq, hb, Nat.not_lt.mpr hc]

theorem hex4_digits {text : Text} {code : ℕ} (h : hex4 text = some code) :
    ∃ digits rest, text = digits ++ rest ∧ digits.length = 4 ∧
      ∀ c ∈ digits, (hexValue c).isSome = true := by
  match text with
  | a::b::c::d::rest =>
    obtain ⟨va, ha, h⟩ := Option.bind_eq_some_iff.mp h
    obtain ⟨vb, hb, h⟩ := Option.bind_eq_some_iff.mp h
    obtain ⟨vc, hc, h⟩ := Option.bind_eq_some_iff.mp h
    obtain ⟨vd, hd, _⟩ := Option.bind_eq_some_iff.mp h
    exact ⟨[a, b, c, d], rest, rfl, rfl, by simp [ha, hb, hc, hd]⟩
  | [] => cases h
  | [_] => cases h
  | [_, _] => cases h
  | [_, _, _] => cases h

theorem scan_digits {digits : Text} {left : ℕ} (hlen : digits.length = left+1)
    (h : ∀ c ∈ digits, (hexValue c).isSome = true) : scan (.hex left) digits = .content := by
  induction left generalizing digits with
  | zero =>
    obtain ⟨c, rfl⟩ := List.length_eq_one_iff.mp hlen
    simp [advance, h c (by simp)]
  | succ left ih =>
    obtain ⟨c, cs, rfl⟩ := List.exists_cons_of_length_eq_add_one hlen
    rw [scan_cons, advance, if_pos (h c (by simp))]
    exact ih (by simpa using hlen) fun d hd => h d (by simp [hd])

theorem scan_hex4 {text : Text} {code : ℕ} (h : hex4 text = some code) :
    scan .escaped ('u'::text) = scan .content (text.drop 4) := by
  obtain ⟨digits, rest, rfl, hlen, hall⟩ := hex4_digits h
  have hu : advance .escaped 'u' = .hex 3 := rfl
  rw [scan_cons, hu, scan_append, scan_digits hlen hall, ← hlen, List.drop_left]

theorem scan_lowSurrogate {text : Text} {low : ℕ} (h : lowSurrogate text = some low) :
    scan .content text = scan .content (text.drop 6) := by
  match text with
  | s::u::cs =>
    rw [lowSurrogate] at h
    split_ifs at h with hsu
    obtain ⟨rfl, rfl⟩ := hsu
    obtain ⟨hhex, _⟩ := Option.filter_eq_some_iff.mp h
    have hs : advance .content '\\' = .escaped := rfl
    rw [scan_cons, hs, scan_hex4 hhex]
    rfl
  | [] => cases h
  | [_] => cases h

theorem scan_escapedChar {text : Text} {scalar : Char} {n : ℕ}
    (h : escapedChar text = some (scalar, n)) :
    scan .escaped text = scan .content (text.drop n) := by
  cases text with
  | nil => cases h
  | cons e cs =>
    rw [escapedChar] at h
    split_ifs at h with hu
    · subst hu
      cases hhex : hex4 cs with
      | none =>
        rw [hhex] at h
        cases h
      | some code =>
        rw [hhex] at h
        dsimp only at h
        split_ifs at h
        · obtain ⟨_, rfl⟩ := Prod.mk.inj (Option.some.inj h)
          exact scan_hex4 hhex
        · obtain ⟨low, hlow, heq⟩ := Option.map_eq_some_iff.mp h
          obtain ⟨_, rfl⟩ := Prod.mk.inj heq
          rw [scan_hex4 hhex, scan_lowSurrogate hlow, List.drop_drop]
          rfl
    · obtain ⟨d, hd, heq⟩ := Option.map_eq_some_iff.mp h
      obtain ⟨_, rfl⟩ := Prod.mk.inj heq
      simp [advance, hu, hd]

theorem scan_stringBody {text x rest : Text} (h : stringBody text = some (x, rest)) :
    scan .content text = scan .outside rest := by
  induction hn : text.length using Nat.strong_induction_on generalizing text x with
  | _ n ih =>
    cases text with
    | nil => cases h
    | cons c cs =>
      rw [List.length_cons] at hn
      by_cases hq : c = '"'
      · subst hq
        rw [stringBody_quote] at h
        obtain ⟨_, rfl⟩ := Prod.mk.inj (Option.some.inj h)
        rfl
      by_cases hb : c = '\\'
      · subst hb
        rw [stringBody_escape] at h
        obtain ⟨⟨d, k⟩, hd, h⟩ := Option.bind_eq_some_iff.mp h
        obtain ⟨⟨y, after⟩, hy, heq⟩ := Option.map_eq_some_iff.mp h
        obtain ⟨_, rfl⟩ := Prod.mk.inj heq
        have hs : advance .content '\\' = .escaped := rfl
        rw [scan_cons, hs, scan_escapedChar hd]
        exact ih _ (by rw [List.length_drop]; omega) hy rfl
      by_cases hc : c.toNat < 32
      · rw [stringBody, stringFrom, if_neg hq, if_neg hb, if_pos hc] at h
        cases h
      · have hv : Verbatim c := ⟨hq, hb, by omega⟩
        rw [stringBody_verbatim hv] at h
        obtain ⟨⟨y, after⟩, hy, heq⟩ := Option.map_eq_some_iff.mp h
        obtain ⟨_, rfl⟩ := Prod.mk.inj heq
        rw [scan_cons, advance_verbatim hv]
        exact ih _ (by omega) hy rfl

theorem scan_lexed {text : Text} {xs : List Text} (h : Lexed text xs) :
    scan .outside text = .outside := by
  induction h with
  | nil => rfl
  | outside hc _ ih => rw [scan_cons, advance_outside hc, ih]
  | literal hb _ ih =>
    have hq : advance .outside '"' = .content := rfl
    rw [scan_cons, hq, scan_stringBody hb, ih]

theorem scan_parse {text : Text} {json : Json} (h : parse text = some json) :
    scan .outside text = .outside := scan_lexed (lexed_parse h)

theorem content_of_quote {place : Place} (h : advance place '"' = .outside) : place = .content := by
  cases place with
  | content => rfl
  | hex left => cases left <;> cases h
  | _ => cases h

def Whole (t : Text) : Prop := ∃ x, t = escape x

theorem scan_whole {t : Text} (h : Whole t) : scan .content t = .content := by
  obtain ⟨x, rfl⟩ := h
  have hscan := scan_stringBody (stringBody_quoted x [])
  rw [scan_append] at hscan
  exact content_of_quote hscan

end Scan

end Foundation.JsonText
