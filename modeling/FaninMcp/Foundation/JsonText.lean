import FaninMcp.Foundation.RustText

/-!
# JSON values and their compact text

Objects are lists of fields in the order in which they are printed; a map with
sorted keys is such a list. A number is the text it is written as, which is a
number of the grammar.
-/

set_option autoImplicit false

namespace Foundation.JsonText
open Foundation.RustText

def isNumberChar (c : Char) : Bool :=
  c.isDigit || c == '-' || c == '+' || c == '.' || c == 'e' || c == 'E'

def isDigits (text : Text) : Bool := text ≠ [] && text.all Char.isDigit

def isExponent : Text → Bool
  | [] => true
  | e::rest => (e == 'e' || e == 'E') &&
    match rest with
    | [] => false
    | c::cs => if c = '+' ∨ c = '-' then isDigits cs else isDigits rest

def isFraction : Text → Bool
  | [] => true
  | c::cs =>
    if c = '.' then isDigits (cs.takeWhile Char.isDigit) && isExponent (cs.dropWhile Char.isDigit)
    else isExponent (c::cs)

/-- No sign or a minus, an integer without leading zeros, then a fraction and
an exponent if there are any. -/
def isNumber (text : Text) : Bool :=
  let unsigned := if text.head? = some '-' then text.tail else text
  let int := unsigned.takeWhile Char.isDigit
  text.all isNumberChar && int ≠ [] && (int == ['0'] || int.head? ≠ some '0') &&
    isFraction (unsigned.dropWhile Char.isDigit)

structure NumberText where
  text : Text
  valid : isNumber text = true

inductive Json where
  | null
  | bool (b : Bool)
  | num (number : NumberText)
  | str (s : Text)
  | arr (items : List Json)
  | obj (fields : List (Text × Json))

abbrev JsonObject := List (Text × Json)

/-- `Map::get`. -/
def get (object : JsonObject) (key : Text) : Option Json :=
  (object.find? (fun field => field.1 = key)).map Prod.snd

def Json.asStr : Json → Option Text
  | .str s => some s
  | _ => none

def Json.asObject : Json → Option JsonObject
  | .obj fields => some fields
  | _ => none

def hexDigit (n : ℕ) : Char := if n < 10 then Char.ofNat (48+n) else Char.ofNat (87+n)

/-- The escapes of a string literal: short ones where there are, `\u00xx` for
the other control characters, every other scalar as it is. -/
def escapeChar (c : Char) : Text :=
  if c = '"' then ['\\', '"']
  else if c = '\\' then ['\\', '\\']
  else if c.toNat = 8 then ['\\', 'b']
  else if c.toNat = 9 then ['\\', 't']
  else if c.toNat = 10 then ['\\', 'n']
  else if c.toNat = 12 then ['\\', 'f']
  else if c.toNat = 13 then ['\\', 'r']
  else if c.toNat < 32 then
    ['\\', 'u', '0', '0', hexDigit (c.toNat / 16), hexDigit (c.toNat % 16)]
  else [c]

def escape (s : Text) : Text := s.flatMap escapeChar

def quote (s : Text) : Text := '"' :: escape s ++ ['"']

mutual

def render : Json → Text
  | .null => "null".toList
  | .bool true => "true".toList
  | .bool false => "false".toList
  | .num number => number.text
  | .str s => quote s
  | .arr items => '[' :: renderItems items
  | .obj fields => '{' :: renderFields fields

def renderItems : List Json → Text
  | [] => [']']
  | [item] => render item ++ [']']
  | item::rest => render item ++ ',' :: renderItems rest

def renderFields : List (Text × Json) → Text
  | [] => ['}']
  | [(key, value)] => quote key ++ ':' :: render value ++ ['}']
  | (key, value)::rest => quote key ++ ':' :: render value ++ ',' :: renderFields rest

end

section Integers

theorem toDigits_head (n : ℕ) (h0 : (Nat.toDigits 10 n).head? = some '0') : n = 0 := by
  induction n using Nat.strong_induction_on with
  | _ n ih =>
    by_cases h : n < 10
    · have hsmall : ∀ m < 10, m.digitChar = '0' → m = 0 := by decide
      rw [Nat.toDigits_of_lt_base h] at h0
      exact hsmall n h (by simpa using h0)
    · rw [Nat.toDigits_of_base_le (by decide) (by omega),
        List.head?_append_of_ne_nil _ Nat.toDigits_ne_nil] at h0
      have := ih (n/10) (by omega) h0
      omega

theorem isNumber_digits {ds : Text} (hne : ds ≠ []) (hd : ∀ c ∈ ds, c.isDigit = true)
    (hzero : ds.head? = some '0' → ds = ['0']) : isNumber ds = true ∧ isNumber ('-'::ds) = true := by
  have hall : ds.all isNumberChar = true := by
    rw [List.all_eq_true]
    exact fun c hc => by simp [isNumberChar, hd c hc]
  have htake : ds.takeWhile Char.isDigit = ds := List.takeWhile_eq_self_iff.mpr hd
  have hdrop : ds.dropWhile Char.isDigit = [] := by
    rw [List.dropWhile_eq_nil_iff]
    exact hd
  have hlead : (ds == ['0'] || decide (ds.head? ≠ some '0')) = true := by
    by_cases h : ds.head? = some '0'
    · simp [hzero h]
    · simp [h]
  have hminus : ds.head? ≠ some '-' := by
    intro h
    have := hd '-' (List.mem_of_head? h)
    revert this
    decide
  constructor
  · simp only [isNumber, if_neg hminus, htake, hdrop, hall, hlead, isFraction]
    simpa using hne
  · simp only [isNumber, List.head?_cons, if_true, List.tail_cons, htake, hdrop, List.all_cons, hall,
      hlead, isFraction]
    simpa [isNumberChar] using hne

/-- `Number::from` an integer. -/
def intNumber (n : ℤ) : NumberText :=
  have h := isNumber_digits (Nat.toDigits_ne_nil (n := n.natAbs) (b := 10))
    (fun _ hc => Nat.isDigit_of_mem_toDigits (by decide) (by decide) hc)
    (fun h => by rw [toDigits_head _ h, Nat.toDigits_zero])
  if n < 0 then ⟨'-' :: Nat.toDigits 10 n.natAbs, h.2⟩ else ⟨Nat.toDigits 10 n.natAbs, h.1⟩

theorem intNumber_text (n : ℕ) : (intNumber n).text = Nat.toDigits 10 n := by
  have h : ¬ ((n : ℤ) < 0) := by omega
  simp [intNumber, h]

theorem intNumber_injective {m n : ℕ} (h : intNumber m = intNumber n) : m = n := by
  have htext := congrArg NumberText.text h
  rw [intNumber_text, intNumber_text] at htext
  rw [← Nat.ofDigitChars_ten_toDigits (n := m), htext, Nat.ofDigitChars_ten_toDigits]

end Integers

end Foundation.JsonText
