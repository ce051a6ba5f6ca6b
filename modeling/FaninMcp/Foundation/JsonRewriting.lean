import FaninMcp.Foundation.JsonScan

/-!
# Rewriting inside string literals

Replacing whole pieces of string content in a printed value gives the text of a
value that differs in its strings only. A replacement anywhere else by a text
that can stand in string content alone gives a text that is no JSON, and what is
broken once is not mended by another replacement of whole pieces.
-/

set_option autoImplicit false

namespace Foundation.JsonText
open Foundation.RustText

/-- From left to right, the pattern is found only where it is a whole piece of
the content of a literal. -/
inductive Inside (pat : Text) : Place → Text → Prop
  | nil {place : Place} : Inside pat place []
  | hit {rest : Text} : Whole pat → Inside pat .content rest → Inside pat .content (pat ++ rest)
  | skip {place : Place} {c : Char} {cs : Text} : ¬ pat <+: c::cs →
      Inside pat (advance place c) cs → Inside pat place (c::cs)

instance (t : Text) : Decidable (Whole t) :=
  decidable_of_iff ((stringBody (t ++ ['"'])).any fun r => escape r.1 = t) <| by
    rw [Option.any_eq_true]
    constructor
    · rintro ⟨r, _, hr⟩
      exact ⟨r.1, (of_decide_eq_true hr).symm⟩
    · rintro ⟨x, rfl⟩
      exact ⟨(x, []), stringBody_quoted x [], by simp⟩

def insideFrom (pat : Text) : ℕ → Place → Text → Bool
  | _, _, [] => true
  | skip+1, place, c::cs => insideFrom pat skip (advance place c) cs
  | 0, place, c::cs =>
    if pat.isPrefixOf (c::cs) then
      Whole pat && place = .content && insideFrom pat (pat.length-1) (advance place c) cs
    else insideFrom pat 0 (advance place c) cs

inductive Restrung : Text → Text → Prop
  | nil : Restrung [] []
  | outside {c : Char} {a b : Text} : c ≠ '"' → Restrung a b → Restrung (c::a) (c::b)
  | quoted {a b : Text} (x y : Text) : Restrung a b → Restrung (quote x ++ a) (quote y ++ b)

/-- No scalar of the text is read in the content of a literal. -/
def Within : Place → Text → Prop
  | _, [] => True
  | place, c::cs => place ≠ .content ∧ Within (advance place c) cs

section Restrung

theorem restrung_strip (left : Text) {a out : Text} (h : '"' ∉ left) (hr : Restrung (left ++ a) out) :
    ∃ b, out = left ++ b ∧ Restrung a b := by
  induction left generalizing out with
  | nil => exact ⟨out, rfl, hr⟩
  | cons c left ih =>
    rw [List.mem_cons, not_or] at h
    generalize heq : c::left ++ a = whole at hr
    cases hr with
    | nil => cases heq
    | outside _ hr =>
      obtain ⟨rfl, rfl⟩ := List.cons.inj heq
      obtain ⟨b, rfl, hb⟩ := ih h.2 hr
      exact ⟨b, rfl, hb⟩
    | quoted x y hr =>
      rw [quote_append] at heq
      exact absurd (List.cons.inj heq).1.symm h.1

theorem restrung_cons {c : Char} {a out : Text} (h : c ≠ '"') (hr : Restrung (c::a) out) :
    ∃ b, out = c::b ∧ Restrung a b := restrung_strip [c] (by simpa using h.symm) hr

theorem restrung_quote {x a out : Text} (hr : Restrung (quote x ++ a) out) :
    ∃ y b, out = quote y ++ b ∧ Restrung a b := by
  generalize heq : quote x ++ a = whole at hr
  rw [quote_append] at heq
  cases hr with
  | nil => cases heq
  | outside hc _ => exact absurd (List.cons.inj heq).1.symm hc
  | quoted z y hr =>
    rw [quote_append] at heq
    have hread := stringBody_quoted x a
    rw [(List.cons.inj heq).2, stringBody_quoted] at hread
    obtain ⟨rfl, rfl⟩ := Prod.mk.inj (Option.some.inj hread)
    exact ⟨y, _, rfl, hr⟩

mutual

theorem restrung_render : ∀ (json : Json) {a out : Text}, Restrung (render json ++ a) out →
    ∃ json' b, out = render json' ++ b ∧ Restrung a b
  | .null, _, _, h => ⟨.null, restrung_strip _ (by decide) h⟩
  | .bool true, _, _, h => ⟨.bool true, restrung_strip _ (by decide) h⟩
  | .bool false, _, _, h => ⟨.bool false, restrung_strip _ (by decide) h⟩
  | .num n, _, _, h =>
    ⟨.num n, restrung_strip _ (fun hin => absurd (number_chars n hin) (by decide)) h⟩
  | .str s, _, _, h => by
    obtain ⟨y, b, rfl, hb⟩ := restrung_quote h
    exact ⟨.str y, b, rfl, hb⟩
  | .arr items, _, _, h => by
    rw [render, List.cons_append] at h
    obtain ⟨_, rfl, hitems⟩ := restrung_cons (by decide) h
    obtain ⟨items', b, _, rfl, hb⟩ := restrung_items items hitems
    exact ⟨.arr items', b, by rw [render]; rfl, hb⟩
  | .obj fields, _, _, h => by
    rw [render, List.cons_append] at h
    obtain ⟨_, rfl, hfields⟩ := restrung_cons (by decide) h
    obtain ⟨fields', b, _, rfl, hb⟩ := restrung_fields fields hfields
    exact ⟨.obj fields', b, by rw [render]; rfl, hb⟩

theorem restrung_items : ∀ (items : List Json) {a out : Text}, Restrung (renderItems items ++ a) out →
    ∃ items' b, items'.length = items.length ∧ out = renderItems items' ++ b ∧ Restrung a b
  | [], _, _, h => by
    obtain ⟨b, rfl, hb⟩ := restrung_cons (by decide) h
    exact ⟨[], b, rfl, rfl, hb⟩
  | [item], _, _, h => by
    rw [renderItems, List.append_assoc] at h
    obtain ⟨item', _, rfl, hclose⟩ := restrung_render item h
    obtain ⟨b, rfl, hb⟩ := restrung_cons (by decide) hclose
    exact ⟨[item'], b, rfl, by rw [renderItems, List.append_assoc]; rfl, hb⟩
  | item::next::more, _, _, h => by
    rw [renderItems_cons, List.append_assoc, List.cons_append] at h
    obtain ⟨item', _, rfl, hcomma⟩ := restrung_render item h
    obtain ⟨_, rfl, hmore⟩ := restrung_cons (by decide) hcomma
    obtain ⟨items', b, hlen, rfl, hb⟩ := restrung_items (next::more) hmore
    obtain ⟨next', more', rfl⟩ := List.exists_cons_of_length_eq_add_one hlen
    exact ⟨item'::next'::more', b, congrArg (· + 1) hlen, by
      rw [renderItems_cons, List.append_assoc, List.cons_append], hb⟩

theorem restrung_fields : ∀ (fields : JsonObject) {a out : Text},
    Restrung (renderFields fields ++ a) out →
    ∃ fields' b, fields'.length = fields.length ∧ out = renderFields fields' ++ b ∧ Restrung a b
  | [], _, _, h => by
    obtain ⟨b, rfl, hb⟩ := restrung_cons (by decide) h
    exact ⟨[], b, rfl, rfl, hb⟩
  | [(key, item)], _, _, h => by
    simp only [renderFields, List.append_assoc, List.cons_append, List.nil_append] at h
    obtain ⟨key', _, rfl, hcolon⟩ := restrung_quote h
    obtain ⟨_, rfl, hitem⟩ := restrung_cons (by decide) hcolon
    obtain ⟨item', _, rfl, hclose⟩ := restrung_render item hitem
    obtain ⟨b, rfl, hb⟩ := restrung_cons (by decide) hclose
    exact ⟨[(key', item')], b, rfl, by simp [renderFields], hb⟩
  | (key, item)::next::more, _, _, h => by
    simp only [renderFields_cons, List.append_assoc, List.cons_append] at h
    obtain ⟨key', _, rfl, hcolon⟩ := restrung_quote h
    obtain ⟨_, rfl, hitem⟩ := restrung_cons (by decide) hcolon
    obtain ⟨item', _, rfl, hcomma⟩ := restrung_render item hitem
    obtain ⟨_, rfl, hmore⟩ := restrung_cons (by decide) hcomma
    obtain ⟨fields', b, hlen, rfl, hb⟩ := restrung_fields (next::more) hmore
    obtain ⟨next', more', rfl⟩ := List.exists_cons_of_length_eq_add_one hlen
    exact ⟨(key', item')::next'::more', b, congrArg (· + 1) hlen, by simp [renderFields_cons], hb⟩

end

theorem restrung_object {fields : JsonObject} {a out : Text}
    (h : Restrung (render (.obj fields) ++ a) out) :
    ∃ fields' b, out = render (.obj fields') ++ b ∧ Restrung a b := by
  rw [render, List.cons_append] at h
  obtain ⟨_, rfl, hfields⟩ := restrung_cons (by decide) h
  obtain ⟨fields', b, _, rfl, hb⟩ := restrung_fields fields hfields
  exact ⟨fields', b, by rw [render]; rfl, hb⟩

end Restrung

section Replacing
variable {pat new : Text}

theorem inside_cases {place : Place} {c : Char} {cs : Text} (h : Inside pat place (c::cs)) :
    (Whole pat ∧ place = .content ∧ ∃ rest, c::cs = pat ++ rest ∧ Inside pat .content rest) ∨
      ¬ pat <+: c::cs ∧ Inside pat (advance place c) cs := by
  generalize heq : c::cs = whole at h
  cases h with
  | nil => cases heq
  | hit hwhole h => exact Or.inl ⟨hwhole, rfl, _, rfl, h⟩
  | skip hpre h =>
    obtain ⟨rfl, rfl⟩ := List.cons.inj heq
    exact Or.inr ⟨hpre, h⟩

theorem inside_skip {place : Place} (hp : place ≠ .content) {c : Char} {cs : Text}
    (h : Inside pat place (c::cs)) : ¬ pat <+: c::cs ∧ Inside pat (advance place c) cs := by
  rcases inside_cases h with ⟨_, hplace, _⟩ | hskip
  · exact absurd hplace hp
  · exact hskip

theorem inside_hit (hpat : pat ≠ []) {place : Place} {rest : Text}
    (h : Inside pat place (pat ++ rest)) :
    Whole pat ∧ place = .content ∧ Inside pat .content rest := by
  obtain ⟨d, ds, rfl⟩ := List.exists_cons_of_ne_nil hpat
  rcases inside_cases h with ⟨hwhole, hplace, rest', heq, hrest⟩ | ⟨hnot, _⟩
  · have hsame : d::ds ++ rest = d::ds ++ rest' := heq
    obtain rfl := List.append_cancel_left hsame
    exact ⟨hwhole, hplace, hrest⟩
  · exact absurd (List.prefix_append (d::ds) rest) hnot

theorem inside_miss {place : Place} {c : Char} {cs : Text} (hpre : ¬ pat <+: c::cs)
    (h : Inside pat place (c::cs)) : Inside pat (advance place c) cs := by
  rcases inside_cases h with ⟨_, _, rest, heq, _⟩ | ⟨_, hrest⟩
  · exact absurd (heq ▸ List.prefix_append pat rest) hpre
  · exact hrest

theorem insideFrom_append (left : Text) (place : Place) (rest : Text) :
    insideFrom pat left.length place (left ++ rest) = insideFrom pat 0 (scan place left) rest := by
  induction left generalizing place with
  | nil => rfl
  | cons c left ih => exact ih (advance place c)

theorem insideFrom_iff (hpat : pat ≠ []) (place : Place) (text : Text) :
    insideFrom pat 0 place text = true ↔ Inside pat place text := by
  induction text using replace_induction hpat generalizing place with
  | nil => exact ⟨fun _ => .nil, fun _ => rfl⟩
  | hit rest ih =>
    obtain ⟨d, ds, rfl⟩ := List.exists_cons_of_ne_nil hpat
    have hpre : (d::ds).isPrefixOf (d :: (ds ++ rest)) = true := by
      rw [List.isPrefixOf_iff_prefix]
      exact List.prefix_append (d::ds) rest
    have hstep : insideFrom (d::ds) 0 place (d::ds ++ rest) =
        (Whole (d::ds) && place = .content && insideFrom (d::ds) 0 (scan place (d::ds)) rest) := by
      rw [List.cons_append, insideFrom, if_pos hpre, List.length_cons, Nat.add_sub_cancel,
        insideFrom_append]
      rfl
    rw [hstep, Bool.and_eq_true, Bool.and_eq_true, decide_eq_true_iff, decide_eq_true_iff, ih]
    constructor
    · rintro ⟨⟨hwhole, rfl⟩, hin⟩
      rw [scan_whole hwhole] at hin
      exact .hit hwhole hin
    · intro hin
      obtain ⟨hwhole, rfl, hrest⟩ := inside_hit hpat hin
      exact ⟨⟨hwhole, rfl⟩, by rwa [scan_whole hwhole]⟩
  | skip c cs hpre ih =>
    have hnot : ¬ pat.isPrefixOf (c::cs) = true := by rwa [List.isPrefixOf_iff_prefix]
    rw [insideFrom, if_neg hnot, ih]
    exact ⟨.skip hpre, inside_miss hpre⟩

theorem inside_within (new : Text) {place : Place} {left rest : Text} (hw : Within place left)
    (h : Inside pat place (left ++ rest)) :
    replace pat new (left ++ rest) = left ++ replace pat new rest ∧
      Inside pat (scan place left) rest := by
  induction left generalizing place with
  | nil => exact ⟨rfl, h⟩
  | cons c left ih =>
    rw [List.cons_append] at h ⊢
    obtain ⟨hpre, hrest⟩ := inside_skip hw.1 h
    obtain ⟨heq, hin⟩ := ih hw.2 hrest
    exact ⟨by rw [replace_skip new hpre, heq, List.cons_append], hin⟩

theorem within_digits {digits : Text} {left : ℕ} (hlen : digits.length = left+1)
    (h : ∀ c ∈ digits, (hexValue c).isSome = true) : Within (.hex left) digits := by
  induction left generalizing digits with
  | zero =>
    obtain ⟨c, rfl⟩ := List.length_eq_one_iff.mp hlen
    simp [Within]
  | succ left ih =>
    obtain ⟨c, cs, rfl⟩ := List.exists_cons_of_length_eq_add_one hlen
    rw [Within, advance, if_pos (h c (by simp))]
    exact ⟨by simp, ih (by simpa using hlen) fun d hd => h d (by simp [hd])⟩

theorem escapeChar_within {c : Char} (h : ¬ Verbatim c) :
    ∃ tail, escapeChar c = '\\'::tail ∧ Within .escaped tail ∧ scan .escaped tail = .content := by
  rcases escapeChar_cases h with ⟨e, heq, hu, he⟩ | ⟨hi, lo, heq, hhex, _⟩
  · exact ⟨[e], heq, by simp [Within], by simp [advance, hu, he]⟩
  · obtain ⟨digits, rest, hdigits, hlen, hall⟩ := hex4_digits (hhex [])
    have hfour : ['0', '0', hi, lo] ++ [] = digits ++ rest := hdigits
    obtain ⟨rfl, _⟩ := List.append_inj hfour hlen.symm
    exact ⟨_, heq, ⟨by decide, within_digits hlen hall⟩, scan_hex4 (hhex [])⟩

/-- A scalar of a string at which the pattern is not found is kept with its escape. -/
theorem inside_scalar (new : Text) {c : Char} {rest : Text} (hpre : ¬ pat <+: escapeChar c ++ rest)
    (h : Inside pat .content (escapeChar c ++ rest)) :
    replace pat new (escapeChar c ++ rest) = escapeChar c ++ replace pat new rest ∧
      Inside pat .content rest := by
  by_cases hc : Verbatim c
  · rw [escapeChar_verbatim hc] at hpre h ⊢
    have hrest := inside_miss hpre h
    rw [advance_verbatim hc] at hrest
    exact ⟨replace_skip new hpre, hrest⟩
  · obtain ⟨tail, htail, hwithin, hscan⟩ := escapeChar_within hc
    have hplace : advance .content '\\' = .escaped := rfl
    rw [htail, List.cons_append] at hpre h ⊢
    have hrest := inside_miss hpre h
    rw [hplace] at hrest
    obtain ⟨hkept, hend⟩ := inside_within new hwithin hrest
    rw [hscan] at hend
    exact ⟨by rw [replace_skip new hpre, hkept, List.cons_append], hend⟩

theorem replace_string (hpat : pat ≠ []) (hnew : Whole new) (x : Text) {tail : Text}
    (h : Inside pat .content (escape x ++ '"'::tail)) :
    ∃ y, replace pat new (escape x ++ '"'::tail) = escape y ++ '"' :: replace pat new tail ∧
      Inside pat .outside tail := by
  induction hn : x.length using Nat.strong_induction_on generalizing x with
  | _ n ih =>
    by_cases hpre : pat <+: escape x ++ '"'::tail
    · obtain ⟨rest, hrest⟩ := hpre
      rw [← hrest] at h
      obtain ⟨⟨z, rfl⟩, _, hin⟩ := inside_hit hpat h
      obtain ⟨w, rfl, rfl⟩ := piece_of_escape hrest.symm
      have hz : z.length ≠ 0 := fun hz => hpat (by rw [List.length_eq_zero_iff.mp hz]; rfl)
      rw [List.length_append] at hn
      obtain ⟨y, heq, htail⟩ := ih w.length (by omega) w hin rfl
      obtain ⟨m, rfl⟩ := hnew
      refine ⟨m ++ y, ?_, htail⟩
      rw [← hrest, replace_hit _ hpat, heq, escape_append, List.append_assoc]
    · cases x with
      | nil => exact ⟨[], replace_skip new hpre, inside_miss hpre h⟩
      | cons c cs =>
        have hcons : ∀ cs, escape (c::cs) = escapeChar c ++ escape cs := fun _ => rfl
        rw [hcons, List.append_assoc] at hpre h
        obtain ⟨hkept, hin⟩ := inside_scalar new hpre h
        rw [List.length_cons] at hn
        obtain ⟨y, heq, htail⟩ := ih cs.length (by omega) cs hin rfl
        refine ⟨c::y, ?_, htail⟩
        rw [hcons, hcons, List.append_assoc, hkept, heq, List.append_assoc]

theorem restrung_replace (hpat : pat ≠ []) (hnew : Whole new) {text : Text} {xs : List Text}
    (hp : Printed text xs) (hs : scan .outside text ≠ .broken) (h : Inside pat .outside text) :
    Restrung text (replace pat new text) := by
  induction hp with
  | nil => exact .nil
  | @outside c text xs hc hp ih =>
    obtain ⟨hpre, hrest⟩ := inside_skip (by decide) h
    have hplace : advance .outside c = .outside := by
      rw [advance, if_neg hc]
      split_ifs with hout
      · rfl
      · rw [scan_cons, advance, if_neg hc, if_neg hout, scan_broken] at hs
        exact absurd rfl hs
    rw [scan_cons, hplace] at hs
    rw [hplace] at hrest
    rw [replace_skip new hpre]
    exact .outside hc (ih hs hrest)
  | @quoted x text xs hp ih =>
    rw [quote_append] at h hs ⊢
    obtain ⟨hpre, hrest⟩ := inside_skip (by decide) h
    obtain ⟨y, heq, hin⟩ := replace_string hpat hnew x hrest
    have hquote : scan .outside ('"' :: (escape x ++ '"'::text)) = scan .outside text :=
      scan_stringBody (stringBody_quoted x text)
    rw [hquote] at hs
    rw [replace_skip new hpre, heq, ← quote_append, ← quote_append]
    exact .quoted x y (ih hs hin)

def BreaksOutside (t : Text) : Prop := ∀ place, place ≠ .content → scan place t = .broken

theorem replace_inside_or_broken (hpat : pat ≠ []) (hwhole : Whole pat) (hnew : Whole new)
    (hbreak : BreaksOutside new) (place : Place) (text : Text) :
    Inside pat place text ∧ scan place (replace pat new text) = scan place text ∨
      scan place (replace pat new text) = .broken := by
  induction text using replace_induction hpat generalizing place with
  | nil => exact Or.inl ⟨.nil, rfl⟩
  | hit rest ih =>
    rw [replace_hit new hpat, scan_append, scan_append]
    by_cases hplace : place = .content
    · subst hplace
      rw [scan_whole hnew, scan_whole hwhole]
      exact (ih .content).imp_left fun h => ⟨.hit hwhole h.1, h.2⟩
    · rw [hbreak place hplace, scan_broken]
      exact Or.inr rfl
  | skip c cs hpre ih =>
    rw [replace_skip new hpre, scan_cons, scan_cons]
    exact (ih (advance place c)).imp_left fun h => ⟨.skip hpre h.1, h.2⟩

end Replacing

end Foundation.JsonText
