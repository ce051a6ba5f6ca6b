import FaninMcp.Foundation.JsonText

/-!
# Reading JSON text

A decoder for the grammar of JSON: strings with their escapes, numbers, arrays,
objects and white space between tokens. What is printed is read back, and the
strings of a value that was read are the string literals of its text, in order.
-/

set_option autoImplicit false

namespace Foundation.JsonText
open Foundation.RustText

def isJsonSpace (c : Char) : Bool := c == ' ' || c == '\n' || c == '\r' || c == '\t'

def skipSpace (text : Text) : Text := text.dropWhile isJsonSpace

def hexValue (c : Char) : Option ℕ :=
  if c.isDigit then some (c.toNat - 48)
  else if 'a' ≤ c ∧ c ≤ 'f' then some (c.toNat - 87)
  else if 'A' ≤ c ∧ c ≤ 'F' then some (c.toNat - 55)
  else none

def hex4 : Text → Option ℕ
  | a::b::c::d::_ => do
    let a ← hexValue a
    let b ← hexValue b
    let c ← hexValue c
    let d ← hexValue d
    return ((a*16 + b)*16 + c)*16 + d
  | _ => none

def shortEscape (c : Char) : Option Char :=
  if c = '"' then some '"'
  else if c = '\\' then some '\\'
  else if c = '/' then some '/'
  else if c = 'b' then some (Char.ofNat 8)
  else if c = 'f' then some (Char.ofNat 12)
  else if c = 'n' then some (Char.ofNat 10)
  else if c = 'r' then some (Char.ofNat 13)
  else if c = 't' then some (Char.ofNat 9)
  else none

def lowSurrogate (rest : Text) : Option ℕ :=
  match rest with
  | s::u::cs =>
    if s = '\\' ∧ u = 'u' then (hex4 cs).filter fun low => 0xDC00 ≤ low && low ≤ 0xDFFF else none
  | _ => none

/-- The scalar behind a backslash, with the number of scalars of its escape. -/
def escapedChar : Text → Option (Char × ℕ)
  | [] => none
  | e::cs =>
    if e = 'u' then
      match hex4 cs with
      | none => none
      | some code =>
        if code < 0xD800 ∨ 0xDFFF < code then some (Char.ofNat code, 5)
        else if code ≤ 0xDBFF then
          (lowSurrogate (cs.drop 4)).map fun low =>
            (Char.ofNat (0x10000 + (code - 0xD800)*0x400 + (low - 0xDC00)), 11)
        else none
    else (shortEscape e).map fun c => (c, 1)

/-- The rest of a string literal behind a cursor, with the text after its closing quote. -/
def stringFrom : ℕ → Text → Option (Text × Text)
  | _, [] => none
  | skip+1, _::cs => stringFrom skip cs
  | 0, c::cs =>
    if c = '"' then some ([], cs)
    else if c = '\\' then
      match escapedChar cs with
      | none => none
      | some (d, n) => (stringFrom n cs).map fun r => (d :: r.1, r.2)
    else if c.toNat < 32 then none
    else (stringFrom 0 cs).map fun r => (c :: r.1, r.2)

def stringBody (text : Text) : Option (Text × Text) := stringFrom 0 text

def expect (c : Char) (text : Text) : Option Text :=
  match skipSpace text with
  | [] => none
  | d::rest => if d = c then some rest else none

def number (text : Text) : Option (Json × Text) :=
  if h : isNumber (text.takeWhile isNumberChar) = true then
    some (.num ⟨text.takeWhile isNumberChar, h⟩, text.dropWhile isNumberChar)
  else none

def scalar (text : Text) : Option (Json × Text) :=
  if "null".toList.isPrefixOf text then some (.null, text.drop 4)
  else if "true".toList.isPrefixOf text then some (.bool true, text.drop 4)
  else if "false".toList.isPrefixOf text then some (.bool false, text.drop 5)
  else number text

mutual

def value : ℕ → Text → Option (Json × Text)
  | 0, _ => none
  | fuel+1, text =>
    match skipSpace text with
    | [] => none
    | c::cs =>
      if c = '"' then (stringBody cs).map fun r => (.str r.1, r.2)
      else if c = '[' then
        match expect ']' cs with
        | some rest => some (.arr [], rest)
        | none => (items fuel cs).map fun r => (.arr r.1, r.2)
      else if c = '{' then
        match expect '}' cs with
        | some rest => some (.obj [], rest)
        | none => (members fuel cs).map fun r => (.obj r.1, r.2)
      else scalar (c::cs)

/-- The items of an array up to its closing bracket, at least one. -/
def items : ℕ → Text → Option (List Json × Text)
  | 0, _ => none
  | fuel+1, text =>
    match value fuel text with
    | none => none
    | some (item, rest) =>
      match expect ',' rest with
      | some rest => (items fuel rest).map fun r => (item :: r.1, r.2)
      | none => (expect ']' rest).map fun rest => ([item], rest)

def members : ℕ → Text → Option (List (Text × Json) × Text)
  | 0, _ => none
  | fuel+1, text =>
    match (expect '"' text).bind stringBody with
    | none => none
    | some (key, rest) =>
      match (expect ':' rest).bind (value fuel) with
      | none => none
      | some (item, rest) =>
        match expect ',' rest with
        | some rest => (members fuel rest).map fun r => ((key, item) :: r.1, r.2)
        | none => (expect '}' rest).map fun rest => ([(key, item)], rest)

end

def parse (text : Text) : Option Json :=
  match value (2*text.length + 1) text with
  | none => none
  | some (json, rest) => if skipSpace rest = [] then some json else none

mutual

/-- The strings of a value, keys included, in the order of its text. -/
def strings : Json → List Text
  | .str s => [s]
  | .arr items => itemStrings items
  | .obj fields => fieldStrings fields
  | _ => []

def itemStrings : List Json → List Text
  | [] => []
  | item::rest => strings item ++ itemStrings rest

def fieldStrings : List (Text × Json) → List Text
  | [] => []
  | (key, item)::rest => key :: strings item ++ fieldStrings rest

end

section Strings

theorem stringFrom_drop (k : ℕ) (text : Text) : stringFrom k text = stringBody (text.drop k) := by
  induction k generalizing text with
  | zero => rfl
  | succ k ih =>
    cases text with
    | nil => rfl
    | cons c cs => simpa [stringFrom] using ih cs

theorem stringBody_quote (rest : Text) : stringBody ('"'::rest) = some ([], rest) := rfl

theorem stringBody_escape (cs : Text) : stringBody ('\\'::cs) =
    (escapedChar cs).bind fun e => (stringBody (cs.drop e.2)).map fun r => (e.1 :: r.1, r.2) := by
  rw [stringBody, stringFrom, if_neg (by decide), if_pos rfl]
  cases escapedChar cs with
  | none => rfl
  | some e =>
    obtain ⟨d, n⟩ := e
    simp only [stringFrom_drop, Option.bind_some]

def Verbatim (c : Char) : Prop := c ≠ '"' ∧ c ≠ '\\' ∧ 32 ≤ c.toNat

instance (c : Char) : Decidable (Verbatim c) :=
  inferInstanceAs (Decidable (c ≠ '"' ∧ c ≠ '\\' ∧ 32 ≤ c.toNat))

theorem stringBody_verbatim {c : Char} (h : Verbatim c) (cs : Text) :
    stringBody (c::cs) = (stringBody cs).map fun r => (c :: r.1, r.2) := by
  obtain ⟨hq, hb, hc⟩ := h
  rw [stringBody, stringFrom, if_neg hq, if_neg hb, if_neg (by omega)]
  rfl

theorem escapeChar_verbatim {c : Char} (h : Verbatim c) : escapeChar c = [c] := by
  obtain ⟨hq, hb, hc⟩ := h
  rw [escapeChar, if_neg hq, if_neg hb, if_neg (by omega), if_neg (by omega), if_neg (by omega),
    if_neg (by omega), if_neg (by omega), if_neg (by omega)]

theorem hexValue_hexDigit {n : ℕ} (h : n < 16) : hexValue (hexDigit n) = some n := by
  have hall : ∀ n < 16, hexValue (hexDigit n) = some n := by decide
  exact hall n h

theorem escapeChar_cases {c : Char} (h : ¬ Verbatim c) :
    (∃ e, escapeChar c = ['\\', e] ∧ e ≠ 'u' ∧ shortEscape e = some c) ∨
    (∃ hi lo, escapeChar c = ['\\', 'u', '0', '0', hi, lo] ∧
      (∀ rest, hex4 ('0' :: '0' :: hi :: lo :: rest) = some c.toNat) ∧ c.toNat < 32) := by
  have hcode : ∀ n, c.toNat = n → some (Char.ofNat n) = some c := by
    rintro n rfl
    rw [Char.ofNat_toNat]
  rw [escapeChar]
  by_cases hq : c = '"'
  · rw [if_pos hq]
    exact Or.inl ⟨'"', rfl, by decide, by simp [shortEscape, hq]⟩
  rw [if_neg hq]
  by_cases hb : c = '\\'
  · rw [if_pos hb]
    exact Or.inl ⟨'\\', rfl, by decide, by simp [shortEscape, hb]⟩
  rw [if_neg hb]
  by_cases h8 : c.toNat = 8
  · rw [if_pos h8]
    exact Or.inl ⟨'b', rfl, by decide, hcode 8 h8⟩
  rw [if_neg h8]
  by_cases h9 : c.toNat = 9
  · rw [if_pos h9]
    exact Or.inl ⟨'t', rfl, by decide, hcode 9 h9⟩
  rw [if_neg h9]
  by_cases h10 : c.toNat = 10
  · rw [if_pos h10]
    exact Or.inl ⟨'n', rfl, by decide, hcode 10 h10⟩
  rw [if_neg h10]
  by_cases h12 : c.toNat = 12
  · rw [if_pos h12]
    exact Or.inl ⟨'f', rfl, by decide, hcode 12 h12⟩
  rw [if_neg h12]
  by_cases h13 : c.toNat = 13
  · rw [if_pos h13]
    exact Or.inl ⟨'r', rfl, by decide, hcode 13 h13⟩
  rw [if_neg h13]
  by_cases h32 : c.toNat < 32
  · rw [if_pos h32]
    refine Or.inr ⟨_, _, rfl, fun rest => ?_, h32⟩
    have h0 : hexValue '0' = some 0 := by decide
    simp only [hex4, h0, hexValue_hexDigit (show c.toNat/16 < 16 by omega),
      hexValue_hexDigit (show c.toNat%16 < 16 by omega), Option.bind_eq_bind, Option.bind_some,
      Option.pure_def, Option.some.injEq]
    omega
  · exact absurd ⟨hq, hb, by omega⟩ h

theorem stringBody_escapeChar (c : Char) (more : Text) :
    stringBody (escapeChar c ++ more) = (stringBody more).map fun r => (c :: r.1, r.2) := by
  by_cases h : Verbatim c
  · rw [escapeChar_verbatim h]
    exact stringBody_verbatim h more
  · rcases escapeChar_cases h with ⟨e, heq, hu, he⟩ | ⟨hi, lo, heq, hhex, hlt⟩
    · simp [heq, stringBody_escape, escapedChar, hu, he]
    · have hsmall : c.toNat < 0xD800 ∨ 0xDFFF < c.toNat := by omega
      simp [heq, stringBody_escape, escapedChar, hhex, hsmall, Char.ofNat_toNat]

theorem stringBody_quoted (s rest : Text) : stringBody (escape s ++ '"'::rest) = some (s, rest) := by
  induction s with
  | nil => exact stringBody_quote rest
  | cons c cs ih =>
    rw [escape, List.flatMap_cons, List.append_assoc, stringBody_escapeChar]
    rw [escape] at ih
    simp [ih]

end Strings

/-- The string literals of a text, read one after the other, quotes outside of
them being what opens the next. -/
inductive Literals : Text → List Text → Prop
  | nil : Literals [] []
  | outside {c : Char} {text : Text} {xs : List Text} : c ≠ '"' → Literals text xs →
      Literals (c::text) xs
  | literal {x text rest : Text} {xs : List Text} : stringBody text = some (x, rest) →
      Literals rest xs → Literals ('"'::text) (x::xs)

/-- A scalar that may stand between the string literals of a value's text. -/
def isOutsideChar (c : Char) : Bool :=
  isJsonSpace c || isNumberChar c || "[]\x7b\x7d:,nulltruefalse".toList.contains c

/-- The same reading, with nothing outside of the literals but what may stand there. -/
inductive Lexed : Text → List Text → Prop
  | nil : Lexed [] []
  | outside {c : Char} {text : Text} {xs : List Text} : isOutsideChar c = true → Lexed text xs →
      Lexed (c::text) xs
  | literal {x text rest : Text} {xs : List Text} : stringBody text = some (x, rest) →
      Lexed rest xs → Lexed ('"'::text) (x::xs)

section Reading

theorem literals_outside {c : Char} (h : c ≠ '"') {text : Text} {xs : List Text} :
    Literals (c::text) xs ↔ Literals text xs := by
  constructor
  · intro hl
    cases hl with
    | outside _ hl => exact hl
    | literal _ _ => exact absurd rfl h
  · exact .outside h

theorem literals_quote {text : Text} {xs : List Text} (h : Literals ('"'::text) xs) :
    ∃ x rest ys, stringBody text = some (x, rest) ∧ xs = x::ys ∧ Literals rest ys := by
  cases h with
  | outside hne _ => exact absurd rfl hne
  | literal hb hl => exact ⟨_, _, _, hb, rfl, hl⟩

theorem literals_append {left : Text} (h : '"' ∉ left) {text : Text} {xs : List Text} :
    Literals (left ++ text) xs ↔ Literals text xs := by
  induction left with
  | nil => rfl
  | cons c left ih =>
    rw [List.mem_cons, not_or] at h
    rw [List.cons_append, literals_outside (Ne.symm h.1), ih h.2]

theorem isOutsideChar_ne_quote {c : Char} (h : isOutsideChar c = true) : c ≠ '"' := by
  rintro rfl
  exact absurd h (by decide)

theorem Lexed.literals {text : Text} {xs : List Text} (h : Lexed text xs) : Literals text xs := by
  induction h with
  | nil => exact .nil
  | outside hc _ ih => exact .outside (isOutsideChar_ne_quote hc) ih
  | literal hb _ ih => exact .literal hb ih

theorem lexed_append {left : Text} (h : ∀ c ∈ left, isOutsideChar c = true) {text : Text}
    {xs : List Text} (hl : Lexed text xs) : Lexed (left ++ text) xs := by
  induction left with
  | nil => exact hl
  | cons c left ih => exact .outside (h c (by simp)) (ih fun d hd => h d (by simp [hd]))

theorem lexed_drop {p : Char → Bool} (hp : ∀ c, p c = true → isOutsideChar c = true) {text : Text}
    {xs : List Text} (h : Lexed (text.dropWhile p) xs) : Lexed text xs := by
  rw [← List.takeWhile_append_dropWhile (p := p) (l := text)]
  exact lexed_append (fun c hc => hp c (List.mem_takeWhile_imp hc)) h

theorem skipSpace_eq {text rest : Text} (h : skipSpace text = rest) {xs : List Text}
    (hl : Lexed rest xs) : Lexed text xs := by
  rw [← h] at hl
  exact lexed_drop (fun c hc => by simp [isOutsideChar, hc]) hl

theorem lexed_expect {c : Char} (hc : isOutsideChar c = true) {text rest : Text}
    (h : expect c text = some rest) {xs : List Text} (hl : Lexed rest xs) : Lexed text xs := by
  rw [expect] at h
  split at h
  · cases h
  · next d cs heq =>
    split_ifs at h with hd
    obtain rfl := Option.some.inj h
    exact skipSpace_eq heq (.outside (hd ▸ hc) hl)

theorem lexed_string {text rest x : Text}
    (h : (expect '"' text).bind stringBody = some (x, rest)) {xs : List Text}
    (hl : Lexed rest xs) : Lexed text (x::xs) := by
  obtain ⟨body, hexpect, hbody⟩ := Option.bind_eq_some_iff.mp h
  rw [expect] at hexpect
  split at hexpect
  · cases hexpect
  · next d cs heq =>
    split_ifs at hexpect with hd
    obtain rfl := Option.some.inj hexpect
    exact skipSpace_eq heq (hd ▸ .literal hbody hl)

theorem lexed_scalar {text rest : Text} {json : Json} (h : scalar text = some (json, rest))
    {xs : List Text} (hl : Lexed rest xs) : strings json = [] ∧ Lexed text xs := by
  have hname : ∀ name : Text, name.all isOutsideChar = true → name.isPrefixOf text = true →
      Lexed (text.drop name.length) xs → Lexed text xs := by
    intro name hall hpre hrest
    obtain ⟨after, rfl⟩ := List.isPrefixOf_iff_prefix.mp hpre
    rw [List.drop_left] at hrest
    exact lexed_append (List.all_eq_true.mp hall) hrest
  rw [scalar] at h
  split_ifs at h with hnull htrue hfalse
  · obtain ⟨rfl, rfl⟩ := Prod.mk.inj (Option.some.inj h)
    exact ⟨rfl, hname _ (by decide) hnull hl⟩
  · obtain ⟨rfl, rfl⟩ := Prod.mk.inj (Option.some.inj h)
    exact ⟨rfl, hname _ (by decide) htrue hl⟩
  · obtain ⟨rfl, rfl⟩ := Prod.mk.inj (Option.some.inj h)
    exact ⟨rfl, hname _ (by decide) hfalse hl⟩
  · rw [number] at h
    split_ifs at h
    obtain ⟨rfl, rfl⟩ := Prod.mk.inj (Option.some.inj h)
    exact ⟨rfl, lexed_drop (fun c hc => by simp [isOutsideChar, hc]) hl⟩

/-- What is read with this much fuel has the literals of its text for strings. -/
structure ReadsLexed (fuel : ℕ) : Prop where
  value : ∀ {text json rest xs}, value fuel text = some (json, rest) → Lexed rest xs →
    Lexed text (strings json ++ xs)
  items : ∀ {text is rest xs}, items fuel text = some (is, rest) → Lexed rest xs →
    Lexed text (itemStrings is ++ xs)
  members : ∀ {text fs rest xs}, members fuel text = some (fs, rest) → Lexed rest xs →
    Lexed text (fieldStrings fs ++ xs)

theorem lexed_value {fuel : ℕ} (ih : ReadsLexed fuel) {text rest : Text} {json : Json}
    {xs : List Text} (h : value (fuel+1) text = some (json, rest)) (hl : Lexed rest xs) :
    Lexed text (strings json ++ xs) := by
  rw [value] at h
  split at h
  · cases h
  next c cs heq =>
  refine skipSpace_eq heq ?_
  split_ifs at h with hq ha ho
  · obtain ⟨⟨x, after⟩, hbody, hjson⟩ := Option.map_eq_some_iff.mp h
    obtain ⟨rfl, rfl⟩ := Prod.mk.inj hjson
    exact hq ▸ .literal hbody hl
  · apply Lexed.outside (ha ▸ by decide)
    split at h
    · next after hexpect =>
      obtain ⟨rfl, rfl⟩ := Prod.mk.inj (Option.some.inj h)
      exact lexed_expect (by decide) hexpect hl
    · obtain ⟨⟨is, after⟩, hitems, hjson⟩ := Option.map_eq_some_iff.mp h
      obtain ⟨rfl, rfl⟩ := Prod.mk.inj hjson
      exact ih.items hitems hl
  · apply Lexed.outside (ho ▸ by decide)
    split at h
    · next after hexpect =>
      obtain ⟨rfl, rfl⟩ := Prod.mk.inj (Option.some.inj h)
      exact lexed_expect (by decide) hexpect hl
    · obtain ⟨⟨fs, after⟩, hmembers, hjson⟩ := Option.map_eq_some_iff.mp h
      obtain ⟨rfl, rfl⟩ := Prod.mk.inj hjson
      exact ih.members hmembers hl
  · obtain ⟨hnone, hread⟩ := lexed_scalar h hl
    rwa [hnone]

theorem lexed_items {fuel : ℕ} (ih : ReadsLexed fuel) {text rest : Text} {is : List Json}
    {xs : List Text} (h : items (fuel+1) text = some (is, rest)) (hl : Lexed rest xs) :
    Lexed text (itemStrings is ++ xs) := by
  rw [items] at h
  split at h
  · cases h
  next item after hvalue =>
  split at h
  · next more hexpect =>
    obtain ⟨⟨is', after'⟩, hitems, heq⟩ := Option.map_eq_some_iff.mp h
    obtain ⟨rfl, rfl⟩ := Prod.mk.inj heq
    rw [itemStrings, List.append_assoc]
    exact ih.value hvalue (lexed_expect (by decide) hexpect (ih.items hitems hl))
  · obtain ⟨after', hexpect, heq⟩ := Option.map_eq_some_iff.mp h
    obtain ⟨rfl, rfl⟩ := Prod.mk.inj heq
    rw [itemStrings, itemStrings, List.append_nil]
    exact ih.value hvalue (lexed_expect (by decide) hexpect hl)

theorem lexed_members {fuel : ℕ} (ih : ReadsLexed fuel) {text rest : Text}
    {fs : List (Text × Json)} {xs : List Text} (h : members (fuel+1) text = some (fs, rest))
    (hl : Lexed rest xs) : Lexed text (fieldStrings fs ++ xs) := by
  rw [members] at h
  split at h
  · cases h
  next key after hkey =>
  split at h
  · cases h
  next item after' hbind =>
  obtain ⟨colon, hcolon, hvalue⟩ := Option.bind_eq_some_iff.mp hbind
  split at h
  · next more hexpect =>
    obtain ⟨⟨fs', after''⟩, hmembers, heq⟩ := Option.map_eq_some_iff.mp h
    obtain ⟨rfl, rfl⟩ := Prod.mk.inj heq
    rw [fieldStrings, List.cons_append, List.cons_append, List.append_assoc]
    refine lexed_string hkey (lexed_expect (by decide) hcolon ?_)
    exact ih.value hvalue (lexed_expect (by decide) hexpect (ih.members hmembers hl))
  · obtain ⟨after'', hexpect, heq⟩ := Option.map_eq_some_iff.mp h
    obtain ⟨rfl, rfl⟩ := Prod.mk.inj heq
    rw [fieldStrings, fieldStrings, List.append_nil, List.cons_append]
    refine lexed_string hkey (lexed_expect (by decide) hcolon ?_)
    exact ih.value hvalue (lexed_expect (by decide) hexpect hl)

theorem readsLexed (fuel : ℕ) : ReadsLexed fuel := by
  induction fuel with
  | zero =>
    constructor
    · intro _ _ _ _ h
      rw [value] at h
      cases h
    · intro _ _ _ _ h
      rw [items] at h
      cases h
    · intro _ _ _ _ h
      rw [members] at h
      cases h
  | succ fuel ih =>
    exact ⟨fun h hl => lexed_value ih h hl, fun h hl => lexed_items ih h hl,
      fun h hl => lexed_members ih h hl⟩

theorem lexed_parse {text : Text} {json : Json} (h : parse text = some json) :
    Lexed text (strings json) := by
  rw [parse] at h
  split at h
  · cases h
  next json' rest hvalue =>
  split_ifs at h with hrest
  obtain rfl := Option.some.inj h
  have hend : Lexed rest [] := skipSpace_eq hrest .nil
  simpa using (readsLexed _).value hvalue hend

theorem literals_parse {text : Text} {json : Json} (h : parse text = some json) :
    Literals text (strings json) := (lexed_parse h).literals

end Reading

end Foundation.JsonText
