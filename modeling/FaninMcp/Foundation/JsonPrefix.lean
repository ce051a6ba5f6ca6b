import FaninMcp.Foundation.JsonRoundTrip

/-!
# JSON text that is cut short

A value that is read does not depend on what follows its last character, numbers
apart, which may go on. So no text of an object or an array is the beginning of
another one, white space at the end apart: a text that is cut short is no value.
-/

set_option autoImplicit false

namespace Foundation.JsonText
open Foundation.RustText

section Tokens
variable {text rest : Text} {c : Char}

theorem skipSpace_append (h : skipSpace text ≠ []) (more : Text) :
    skipSpace (text ++ more) = skipSpace text ++ more := by
  rw [skipSpace] at h
  rw [skipSpace, List.dropWhile_append, if_neg (by simpa using h), skipSpace]

theorem expect_cons : expect c text = some rest ↔ skipSpace text = c::rest := by
  rw [expect]
  split
  · simp_all
  · simp_all

theorem expect_append (h : expect c text = some rest) (more : Text) :
    expect c (text ++ more) = some (rest ++ more) := by
  rw [expect_cons] at h ⊢
  rw [skipSpace_append (by simp [h]), h, List.cons_append]

theorem expect_append_none (hne : skipSpace text ≠ []) (h : expect c text = none) (more : Text) :
    expect c (text ++ more) = none := by
  obtain ⟨d, ds, hd⟩ := List.exists_cons_of_ne_nil hne
  have hother : d ≠ c := by
    rintro rfl
    rw [expect_cons.mpr hd] at h
    cases h
  simp [expect, skipSpace_append hne, hd, hother]

theorem hex4_append {code : ℕ} (h : hex4 text = some code) (more : Text) :
    hex4 (text ++ more) = some code ∧ 4 ≤ text.length := by
  match text, h with
  | a::b::c::d::ds, h => exact ⟨h, by simp⟩

theorem lowSurrogate_append {low : ℕ} (h : lowSurrogate text = some low) (more : Text) :
    lowSurrogate (text ++ more) = some low := by
  match text, h with
  | s::u::cs, h =>
    simp only [lowSurrogate, List.cons_append] at h ⊢
    split_ifs at h ⊢
    obtain ⟨hcode, hrange⟩ := Option.filter_eq_some_iff.mp h
    rw [(hex4_append hcode more).1]
    exact Option.filter_eq_some_iff.mpr ⟨rfl, hrange⟩

theorem escapedChar_append {d : Char} {n : ℕ} (h : escapedChar text = some (d, n)) (more : Text) :
    escapedChar (text ++ more) = some (d, n) := by
  cases text with
  | nil => cases h
  | cons e cs =>
    simp only [escapedChar, List.cons_append] at h ⊢
    split_ifs at h ⊢ with hu
    · cases hhex : hex4 cs with
      | none => simp [hhex] at h
      | some code =>
        obtain ⟨happend, hlen⟩ := hex4_append hhex more
        rw [hhex] at h
        rw [happend]
        dsimp only at h ⊢
        split_ifs at h ⊢
        · exact h
        · obtain ⟨low, hlow, heq⟩ := Option.map_eq_some_iff.mp h
          rw [List.drop_append_of_le_length hlen, lowSurrogate_append hlow more]
          exact congrArg some heq
    · exact h

theorem stringFrom_append {skip : ℕ} {x : Text} (h : stringFrom skip text = some (x, rest))
    (more : Text) : stringFrom skip (text ++ more) = some (x, rest ++ more) := by
  induction text generalizing skip x with
  | nil => cases skip <;> cases h
  | cons c cs ih =>
    cases skip with
    | succ skip => exact ih h
    | zero =>
      rw [stringFrom] at h
      rw [List.cons_append, stringFrom]
      split_ifs at h ⊢ with hq hb
      · obtain ⟨rfl, rfl⟩ := Prod.mk.inj (Option.some.inj h)
        rfl
      · cases hescaped : escapedChar cs with
        | none => simp [hescaped] at h
        | some e =>
          obtain ⟨d, n⟩ := e
          rw [hescaped] at h
          rw [escapedChar_append hescaped more]
          obtain ⟨⟨y, after⟩, hrest, heq⟩ := Option.map_eq_some_iff.mp h
          obtain ⟨rfl, rfl⟩ := Prod.mk.inj heq
          exact Option.map_eq_some_iff.mpr ⟨(y, after ++ more), ih hrest, rfl⟩
      · obtain ⟨⟨y, after⟩, hrest, heq⟩ := Option.map_eq_some_iff.mp h
        obtain ⟨rfl, rfl⟩ := Prod.mk.inj heq
        exact Option.map_eq_some_iff.mpr ⟨(y, after ++ more), ih hrest, rfl⟩

theorem stringBody_append {x : Text} (h : stringBody text = some (x, rest)) (more : Text) :
    stringBody (text ++ more) = some (x, rest ++ more) := stringFrom_append h more

end Tokens

section Scalars
variable {text rest : Text} {json : Json}

/-- A number may go on in what follows; every other value is complete. -/
def Settled (json : Json) (rest : Text) : Prop := (∀ n, json ≠ .num n) ∨ rest ≠ []

theorem number_append (h : number text = some (json, rest)) (hrest : rest ≠ []) (more : Text) :
    number (text ++ more) = some (json, rest ++ more) := by
  rw [number] at h
  split_ifs at h with hnumber
  obtain ⟨rfl, rfl⟩ := Prod.mk.inj (Option.some.inj h)
  have hdrop : (text ++ more).dropWhile isNumberChar = text.dropWhile isNumberChar ++ more := by
    rw [List.dropWhile_append, if_neg (by simpa using hrest)]
  have htake : (text ++ more).takeWhile isNumberChar = text.takeWhile isNumberChar := by
    have hsplit := List.takeWhile_append_dropWhile (p := isNumberChar) (l := text ++ more)
    rw [hdrop, ← List.append_assoc] at hsplit
    have hwhole := List.append_cancel_right hsplit
    conv_rhs at hwhole => rw [← List.takeWhile_append_dropWhile (p := isNumberChar) (l := text)]
    exact List.append_cancel_right hwhole
  rw [number, dif_pos (by rwa [htake])]
  simp only [htake, hdrop]

theorem keyword_append {word : Text} (h : word.isPrefixOf text = true)
    (hrest : text.drop word.length = rest) (more : Text) :
    word.isPrefixOf (text ++ more) = true ∧ (text ++ more).drop word.length = rest ++ more := by
  obtain ⟨after, rfl⟩ := List.isPrefixOf_iff_prefix.mp h
  rw [List.drop_left] at hrest
  subst hrest
  rw [List.append_assoc, List.isPrefixOf_iff_prefix, List.drop_left]
  exact ⟨List.prefix_append word _, rfl⟩

theorem number_no_keyword (h : number text = some (json, rest)) {c : Char} {cs : Text}
    (hc : isNumberChar c = false) (more : Text) :
    (c::cs).isPrefixOf (text ++ more) = false := by
  rw [number] at h
  split_ifs at h with hnumber
  cases text with
  | nil => exact absurd hnumber (by decide)
  | cons d ds =>
    have hd : isNumberChar d = true := by
      by_contra hd
      rw [List.takeWhile_cons_of_neg hd] at hnumber
      exact absurd hnumber (by decide)
    have hne : c ≠ d := by
      rintro rfl
      rw [hd] at hc
      cases hc
    rw [List.cons_append, Bool.eq_false_iff, ne_eq, List.isPrefixOf_iff_prefix,
      List.cons_prefix_cons]
    exact fun hpre => hne hpre.1

theorem scalar_append (h : scalar text = some (json, rest)) (hsettled : Settled json rest)
    (more : Text) : scalar (text ++ more) = some (json, rest ++ more) := by
  have hword : ∀ {word : Text} {v : Json}, word.isPrefixOf text = true →
      some (v, text.drop word.length) = some (json, rest) →
      v = json ∧ word.isPrefixOf (text ++ more) = true ∧
        (text ++ more).drop word.length = rest ++ more := by
    intro word v hpre heq
    obtain ⟨hv, hrest⟩ := Prod.mk.inj (Option.some.inj heq)
    exact ⟨hv, keyword_append hpre hrest more⟩
  rw [scalar] at h
  split_ifs at h with hnull htrue hfalse
  · obtain ⟨rfl, hpre, hdrop⟩ := hword hnull h
    rw [scalar, if_pos hpre]
    exact congrArg (fun after => some (Json.null, after)) hdrop
  · obtain ⟨rfl, hpre, hdrop⟩ := hword htrue h
    obtain ⟨after, rfl⟩ := List.isPrefixOf_iff_prefix.mp htrue
    rw [scalar, if_neg (by simp), if_pos hpre]
    exact congrArg (fun after => some (Json.bool true, after)) hdrop
  · obtain ⟨rfl, hpre, hdrop⟩ := hword hfalse h
    obtain ⟨after, rfl⟩ := List.isPrefixOf_iff_prefix.mp hfalse
    rw [scalar, if_neg (by simp), if_neg (by simp), if_pos hpre]
    exact congrArg (fun after => some (Json.bool false, after)) hdrop
  · have hrest : rest ≠ [] := by
      rcases hsettled with hother | hrest
      · rw [number] at h
        split_ifs at h
        exact absurd (Prod.mk.inj (Option.some.inj h)).1.symm (hother _)
      · exact hrest
    have hn : "null".toList.isPrefixOf (text ++ more) = false :=
      number_no_keyword h (by decide) more
    have ht : "true".toList.isPrefixOf (text ++ more) = false :=
      number_no_keyword h (by decide) more
    have hf : "false".toList.isPrefixOf (text ++ more) = false :=
      number_no_keyword h (by decide) more
    rw [scalar, if_neg (Bool.eq_false_iff.mp hn), if_neg (Bool.eq_false_iff.mp ht),
      if_neg (Bool.eq_false_iff.mp hf)]
    exact number_append h hrest more

end Scalars

/-- What is read with this much fuel is read with more fuel from a longer text, and
leaves that much more. -/
structure ReadsOn (fuel : ℕ) : Prop where
  value : ∀ {text json rest}, value fuel text = some (json, rest) → Settled json rest →
    ∀ fuel' ≥ fuel, ∀ more, value fuel' (text ++ more) = some (json, rest ++ more)
  items : ∀ {text is rest}, items fuel text = some (is, rest) →
    ∀ fuel' ≥ fuel, ∀ more, items fuel' (text ++ more) = some (is, rest ++ more)
  members : ∀ {text fs rest}, members fuel text = some (fs, rest) →
    ∀ fuel' ≥ fuel, ∀ more, members fuel' (text ++ more) = some (fs, rest ++ more)

section Values
variable {fuel : ℕ} {text rest : Text}

theorem settled_expect {json : Json} {c : Char} (h : expect c text = some rest) :
    Settled json text := by
  refine Or.inr ?_
  rintro rfl
  cases h

theorem value_space_ne {json : Json} (h : value fuel text = some (json, rest)) :
    skipSpace text ≠ [] := by
  intro hempty
  cases fuel with
  | zero =>
    rw [value] at h
    cases h
  | succ fuel =>
    rw [value, hempty] at h
    cases h

theorem items_space_ne {is : List Json} (h : items fuel text = some (is, rest)) :
    skipSpace text ≠ [] := by
  cases fuel with
  | zero =>
    rw [items] at h
    cases h
  | succ fuel =>
    rw [items] at h
    split at h
    · cases h
    · rename_i hvalue
      exact value_space_ne hvalue

theorem members_space_ne {fs : JsonObject} (h : members fuel text = some (fs, rest)) :
    skipSpace text ≠ [] := by
  cases fuel with
  | zero =>
    rw [members] at h
    cases h
  | succ fuel =>
    rw [members] at h
    split at h
    · cases h
    · rename_i hkey
      obtain ⟨after, hexpect, _⟩ := Option.bind_eq_some_iff.mp hkey
      simp [expect_cons.mp hexpect]

theorem value_on (ih : ReadsOn fuel) {json : Json} (h : value (fuel+1) text = some (json, rest))
    (hsettled : Settled json rest) {fuel' : ℕ} (hfuel : fuel ≤ fuel') (more : Text) :
    value (fuel'+1) (text ++ more) = some (json, rest ++ more) := by
  have hne := value_space_ne h
  rw [value] at h ⊢
  rw [skipSpace_append hne]
  cases hskip : skipSpace text with
  | nil => exact absurd hskip hne
  | cons c cs =>
    rw [hskip] at h
    rw [List.cons_append]
    dsimp only at h ⊢
    split_ifs at h ⊢ with hq ha ho
    · obtain ⟨⟨x, after⟩, hbody, heq⟩ := Option.map_eq_some_iff.mp h
      obtain ⟨rfl, rfl⟩ := Prod.mk.inj heq
      exact Option.map_eq_some_iff.mpr ⟨_, stringBody_append hbody more, rfl⟩
    · cases hexpect : expect ']' cs with
      | some after =>
        rw [hexpect] at h
        rw [expect_append hexpect more]
        obtain ⟨rfl, rfl⟩ := Prod.mk.inj (Option.some.inj h)
        rfl
      | none =>
        rw [hexpect] at h
        obtain ⟨⟨is, after⟩, hitems, heq⟩ := Option.map_eq_some_iff.mp h
        obtain ⟨rfl, rfl⟩ := Prod.mk.inj heq
        rw [expect_append_none (items_space_ne hitems) hexpect more]
        exact Option.map_eq_some_iff.mpr ⟨_, ih.items hitems fuel' hfuel more, rfl⟩
    · cases hexpect : expect '\x7d' cs with
      | some after =>
        rw [hexpect] at h
        rw [expect_append hexpect more]
        obtain ⟨rfl, rfl⟩ := Prod.mk.inj (Option.some.inj h)
        rfl
      | none =>
        rw [hexpect] at h
        obtain ⟨⟨fs, after⟩, hmembers, heq⟩ := Option.map_eq_some_iff.mp h
        obtain ⟨rfl, rfl⟩ := Prod.mk.inj heq
        rw [expect_append_none (members_space_ne hmembers) hexpect more]
        exact Option.map_eq_some_iff.mpr ⟨_, ih.members hmembers fuel' hfuel more, rfl⟩
    · exact scalar_append h hsettled more

theorem items_on (ih : ReadsOn fuel) {is : List Json} (h : items (fuel+1) text = some (is, rest))
    {fuel' : ℕ} (hfuel : fuel ≤ fuel') (more : Text) :
    items (fuel'+1) (text ++ more) = some (is, rest ++ more) := by
  rw [items] at h ⊢
  split at h
  · cases h
  next item after hvalue =>
  split at h
  · next following hexpect =>
    obtain ⟨⟨is', after'⟩, hitems, heq⟩ := Option.map_eq_some_iff.mp h
    obtain ⟨rfl, rfl⟩ := Prod.mk.inj heq
    rw [ih.value hvalue (settled_expect hexpect) fuel' hfuel more]
    dsimp only
    rw [expect_append hexpect more]
    exact Option.map_eq_some_iff.mpr ⟨_, ih.items hitems fuel' hfuel more, rfl⟩
  · next hcomma =>
    obtain ⟨after', hexpect, heq⟩ := Option.map_eq_some_iff.mp h
    obtain ⟨rfl, rfl⟩ := Prod.mk.inj heq
    rw [ih.value hvalue (settled_expect hexpect) fuel' hfuel more]
    dsimp only
    rw [expect_append_none (by simp [expect_cons.mp hexpect]) hcomma more]
    exact Option.map_eq_some_iff.mpr ⟨_, expect_append hexpect more, rfl⟩

theorem members_on (ih : ReadsOn fuel) {fs : JsonObject}
    (h : members (fuel+1) text = some (fs, rest)) {fuel' : ℕ} (hfuel : fuel ≤ fuel')
    (more : Text) : members (fuel'+1) (text ++ more) = some (fs, rest ++ more) := by
  rw [members] at h ⊢
  split at h
  · cases h
  next key after hkey =>
  split at h
  · cases h
  next item after' hbind =>
  obtain ⟨quoted, hquote, hbody⟩ := Option.bind_eq_some_iff.mp hkey
  obtain ⟨colon, hcolon, hvalue⟩ := Option.bind_eq_some_iff.mp hbind
  rw [expect_append hquote more, Option.bind_some, stringBody_append hbody more]
  dsimp only
  rw [expect_append hcolon more, Option.bind_some]
  split at h
  · next following hexpect =>
    obtain ⟨⟨fs', after''⟩, hmembers, heq⟩ := Option.map_eq_some_iff.mp h
    obtain ⟨rfl, rfl⟩ := Prod.mk.inj heq
    rw [ih.value hvalue (settled_expect hexpect) fuel' hfuel more]
    dsimp only
    rw [expect_append hexpect more]
    exact Option.map_eq_some_iff.mpr ⟨_, ih.members hmembers fuel' hfuel more, rfl⟩
  · next hcomma =>
    obtain ⟨after'', hexpect, heq⟩ := Option.map_eq_some_iff.mp h
    obtain ⟨rfl, rfl⟩ := Prod.mk.inj heq
    rw [ih.value hvalue (settled_expect hexpect) fuel' hfuel more]
    dsimp only
    rw [expect_append_none (by simp [expect_cons.mp hexpect]) hcomma more]
    exact Option.map_eq_some_iff.mpr ⟨_, expect_append hexpect more, rfl⟩

theorem readsOn (fuel : ℕ) : ReadsOn fuel := by
  induction fuel with
  | zero =>
    constructor
    · intro _ _ _ h
      rw [value] at h
      cases h
    · intro _ _ _ h
      rw [items] at h
      cases h
    · intro _ _ _ h
      rw [members] at h
      cases h
  | succ fuel ih =>
    constructor
    · intro _ _ _ h hsettled fuel' hfuel more
      obtain ⟨k, rfl⟩ := Nat.exists_eq_add_of_le hfuel
      rw [Nat.add_right_comm]
      exact value_on ih h hsettled (Nat.le_add_right fuel k) more
    · intro _ _ _ h fuel' hfuel more
      obtain ⟨k, rfl⟩ := Nat.exists_eq_add_of_le hfuel
      rw [Nat.add_right_comm]
      exact items_on ih h (Nat.le_add_right fuel k) more
    · intro _ _ _ h fuel' hfuel more
      obtain ⟨k, rfl⟩ := Nat.exists_eq_add_of_le hfuel
      rw [Nat.add_right_comm]
      exact members_on ih h (Nat.le_add_right fuel k) more

/-- What is added to a text that holds a value, other than a number, and leaves one,
is white space. -/
theorem parse_prefix {json json' : Json} {more : Text} (h : parse text = some json)
    (hjson : ∀ n, json ≠ .num n) (h' : parse (text ++ more) = some json') :
    skipSpace more = [] ∧ json' = json := by
  rw [parse] at h h'
  split at h
  · cases h
  next first rest hvalue =>
  split_ifs at h with hspace
  obtain rfl := Option.some.inj h
  have hlonger := (readsOn _).value hvalue (Or.inl hjson) (2*(text ++ more).length + 1)
    (by simp) more
  rw [hlonger] at h'
  dsimp only at h'
  split_ifs at h' with hall
  refine ⟨?_, (Option.some.inj h').symm⟩
  rw [skipSpace, List.dropWhile_append, if_pos (by simpa [skipSpace] using hspace)] at hall
  exact hall

/-- A text that ends in its own last character, and not in white space, is no value
when it is cut short before that. -/
theorem parse_cut {json : Json} {last : Char} {before : Text}
    (h : parse (before ++ [last]) = some json)
    (hlast : isJsonSpace last = false) {cut : Text} (hcut : cut <+: before) :
    ∀ json', parse cut = some json' → ∃ n, json' = .num n := by
  intro json' hread
  by_contra hother
  obtain ⟨after, rfl⟩ := hcut
  rw [List.append_assoc] at h
  obtain ⟨hspace, _⟩ := parse_prefix hread (fun n heq => hother ⟨n, heq⟩) h
  have hmem : last ∈ skipSpace (after ++ [last]) := by
    rw [skipSpace, List.dropWhile_append]
    split_ifs
    · simp [hlast]
    · simp
  rw [hspace] at hmem
  cases hmem

end Values

end Foundation.JsonText
