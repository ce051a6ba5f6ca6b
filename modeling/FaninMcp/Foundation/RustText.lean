import Mathlib.Data.List.Infix
import Mathlib.Data.List.DropRight
import Mathlib.Tactic.Linarith

/-!
# Text as a list of Unicode scalars

The `str` operations of Rust that verified programs lean on, as structural
recursions over the scalars of a string: trimming, splitting at the first
separator and replacing every occurrence. The rewriting laws say what one
replacement does to a text, to its surroundings and to its length.
-/

set_option autoImplicit false

namespace Foundation.RustText

abbrev Text := List Char

/-- `char::is_whitespace`: the scalars with the Unicode property White_Space. -/
def isWhitespace (c : Char) : Bool :=
  let u := c.toNat
  (0x0009 ≤ u && u ≤ 0x000D) || u == 0x0020 || u == 0x0085 || u == 0x00A0 || u == 0x1680 ||
    (0x2000 ≤ u && u ≤ 0x200A) || u == 0x2028 || u == 0x2029 || u == 0x202F || u == 0x205F ||
    u == 0x3000

/-- `str::trim`. -/
def trim (s : Text) : Text := (s.dropWhile isWhitespace).rdropWhile isWhitespace

/-- `str::trim_end`. -/
def trimEnd (s : Text) : Text := s.rdropWhile isWhitespace

/-- `str::split_once`: around the first occurrence of the separator. -/
def splitOnce (sep : Text) : Text → Option (Text × Text)
  | [] => if sep = [] then some ([], []) else none
  | c::cs =>
    if sep.isPrefixOf (c::cs) then some ([], (c::cs).drop sep.length)
    else (splitOnce sep cs).map fun parts => (c :: parts.1, parts.2)

/-- `str::replace` behind a cursor: the first `skip` scalars belong to an
occurrence that has already been replaced. -/
def replaceFrom (pat new : Text) : ℕ → Text → Text
  | _, [] => []
  | skip+1, _::cs => replaceFrom pat new skip cs
  | 0, c::cs =>
    if pat.isPrefixOf (c::cs) then new ++ replaceFrom pat new (pat.length-1) cs
    else c :: replaceFrom pat new 0 cs

/-- `str::replace` for a non-empty pattern: occurrences are found from left to
right and do not overlap. -/
def replace (pat new text : Text) : Text := replaceFrom pat new 0 text

section Trim

theorem mem_trim {s : Text} {c : Char} (h : c ∈ trim s) : c ∈ s :=
  (List.dropWhile_suffix _).subset ((List.rdropWhile_prefix _ _).subset h)

theorem trim_ne_nil {s : Text} : trim s ≠ [] ↔ ∃ c ∈ s, isWhitespace c = false := by
  rw [trim, ne_eq, List.rdropWhile_eq_nil_iff]
  constructor
  · intro h
    push Not at h
    obtain ⟨c, hc, hw⟩ := h
    exact ⟨c, (List.dropWhile_suffix _).subset hc, by simpa using hw⟩
  · rintro ⟨c, hc, hw⟩ hall
    induction s with
    | nil => cases hc
    | cons d ds ih =>
      rw [List.dropWhile_cons] at hall
      split_ifs at hall with hd
      · rcases List.mem_cons.mp hc with rfl | hrest
        · exact absurd (hd.symm.trans hw) (by simp)
        · exact ih hrest hall
      · exact hd (hall d List.mem_cons_self)

def Trimmed (s : Text) : Prop :=
  (∀ c, s.head? = some c → isWhitespace c = false) ∧
    ∀ c, s.getLast? = some c → isWhitespace c = false

theorem trimEnd_last {s : Text} {c : Char} (h : (trimEnd s).getLast? = some c) :
    isWhitespace c = false := by
  have hne : trimEnd s ≠ [] := by
    intro hnil
    rw [hnil] at h
    cases h
  rw [List.getLast?_eq_some_getLast hne, Option.some.injEq] at h
  have hlast := List.rdropWhile_last_not isWhitespace s hne
  rw [← h]
  exact Bool.eq_false_iff.mpr hlast

theorem head_of_prefix {a s : Text} {c : Char} (h : a <+: s) (hc : a.head? = some c) :
    s.head? = some c := by
  obtain ⟨rest, rfl⟩ := h
  cases a with
  | nil => cases hc
  | cons d a => exact hc

theorem trim_split (s : Text) : ∃ front back, s = front ++ trim s ++ back ∧
    ∀ c ∈ front ++ back, isWhitespace c = true := by
  refine ⟨s.takeWhile isWhitespace, (s.dropWhile isWhitespace).rtakeWhile isWhitespace, ?_, ?_⟩
  · rw [trim, List.append_assoc, List.rdropWhile_append_rtakeWhile, List.takeWhile_append_dropWhile]
  · intro c hc
    rcases List.mem_append.mp hc with hfront | hback
    · exact List.mem_takeWhile_imp hfront
    · exact List.mem_rtakeWhile_imp hback

theorem trim_trimmed (s : Text) : Trimmed (trim s) := by
  constructor
  · intro c hc
    have hhead := head_of_prefix (List.rdropWhile_prefix _ _) hc
    have hnot := List.head?_dropWhile_not isWhitespace s
    rw [hhead] at hnot
    exact hnot
  · intro c hc
    exact trimEnd_last hc

theorem trimEnd_eq_self {s : Text} (h : ∀ c, s.getLast? = some c → isWhitespace c = false) :
    trimEnd s = s := by
  rw [trimEnd, List.rdropWhile_eq_self_iff]
  intro hne
  rw [h _ (List.getLast?_eq_some_getLast hne)]
  exact Bool.noConfusion

theorem trim_eq_self {s : Text} : trim s = s ↔ Trimmed s := by
  constructor
  · intro h
    rw [← h]
    exact trim_trimmed s
  · rintro ⟨hhead, hlast⟩
    have hdrop : s.dropWhile isWhitespace = s := by
      cases s with
      | nil => rfl
      | cons c cs => rw [List.dropWhile_cons, hhead c rfl, if_neg Bool.noConfusion]
    rw [trim, hdrop]
    exact trimEnd_eq_self hlast

theorem trim_sublist (s : Text) : (trim s).Sublist s :=
  (List.rdropWhile_prefix _ _).sublist.trans (List.dropWhile_suffix _).sublist

end Trim

section Split

theorem splitOnce_some {sep text left right : Text} (h : splitOnce sep text = some (left, right)) :
    text = left ++ sep ++ right := by
  induction text generalizing left with
  | nil =>
    rw [splitOnce] at h
    split_ifs at h with hsep
    cases h
    simp [hsep]
  | cons c cs ih =>
    rw [splitOnce] at h
    split_ifs at h with hp
    · cases h
      obtain ⟨rest, hrest⟩ := List.isPrefixOf_iff_prefix.mp hp
      simp [← hrest]
    · obtain ⟨⟨before, after⟩, hparts, heq⟩ := Option.map_eq_some_iff.mp h
      cases heq
      rw [ih hparts]
      simp

theorem splitOnce_first {sep text left right : Text} (hsep : sep ≠ [])
    (h : splitOnce sep text = some (left, right)) : ¬ sep <:+: left := by
  induction text generalizing left with
  | nil =>
    rw [splitOnce, if_neg hsep] at h
    cases h
  | cons c cs ih =>
    rw [splitOnce] at h
    split_ifs at h with hp
    · cases h
      rwa [List.infix_nil]
    · obtain ⟨⟨before, after⟩, hparts, heq⟩ := Option.map_eq_some_iff.mp h
      cases heq
      rw [List.infix_cons_iff, not_or]
      refine ⟨fun hpre => hp ?_, ih hparts⟩
      rw [List.isPrefixOf_iff_prefix, splitOnce_some hparts, List.append_assoc, ← List.cons_append]
      exact hpre.trans (List.prefix_append _ _)

/-- A text in front of the separator that has none of its first character is
split off whole. -/
theorem splitOnce_append {d : Char} {ds : Text} (left right : Text) (h : d ∉ left) :
    splitOnce (d::ds) (left ++ d::ds ++ right) = some (left, right) := by
  induction left with
  | nil =>
    have hp : (d::ds).isPrefixOf (d::ds ++ right) = true := by simp
    simp only [List.nil_append, List.cons_append] at hp ⊢
    simp [splitOnce, hp]
  | cons c left ih =>
    obtain ⟨hne, hrest⟩ := List.ne_and_not_mem_of_not_mem_cons h
    have hp : (d::ds).isPrefixOf (c :: (left ++ d::ds ++ right)) = false := by
      simp [List.isPrefixOf, hne]
    rw [List.cons_append, List.cons_append, splitOnce, hp, ih hrest]
    rfl

end Split

section Replace
variable {pat : Text} (new : Text)

theorem replaceFrom_drop (pat : Text) (k : ℕ) (text : Text) :
    replaceFrom pat new k text = replace pat new (text.drop k) := by
  induction k generalizing text with
  | zero => simp [replace]
  | succ k ih =>
    cases text with
    | nil => simp [replace, replaceFrom]
    | cons c cs => simpa [replaceFrom] using ih cs

@[simp] theorem replace_nil (pat : Text) : replace pat new [] = [] := rfl

theorem replace_hit (hp : pat ≠ []) (rest : Text) :
    replace pat new (pat ++ rest) = new ++ replace pat new rest := by
  cases pat with
  | nil => exact absurd rfl hp
  | cons c cs =>
    have hpre : (c::cs).isPrefixOf (c::cs ++ rest) = true := by
      rw [List.isPrefixOf_iff_prefix]
      exact List.prefix_append _ _
    rw [replace, List.cons_append, replaceFrom]
    rw [List.cons_append] at hpre
    rw [if_pos hpre, replaceFrom_drop]
    simp

theorem replace_skip {c : Char} {cs : Text} (h : ¬ pat <+: c::cs) :
    replace pat new (c::cs) = c :: replace pat new cs := by
  have hn : ¬ pat.isPrefixOf (c::cs) = true := by rwa [List.isPrefixOf_iff_prefix]
  rw [replace, replaceFrom, if_neg hn]
  rfl

/-- A text is read the way replacement reads it: it ends, an occurrence starts
here, or one scalar is passed over. -/
theorem replace_induction {motive : Text → Prop} (hp : pat ≠ []) (nil : motive [])
    (hit : ∀ rest, motive rest → motive (pat ++ rest))
    (skip : ∀ c cs, ¬ pat <+: c::cs → motive cs → motive (c::cs)) (text : Text) :
    motive text := by
  induction hn : text.length using Nat.strong_induction_on generalizing text with
  | _ n ih =>
    have hlen := List.length_pos_iff.mpr hp
    cases text with
    | nil => exact nil
    | cons c cs =>
      by_cases h : pat <+: c::cs
      · obtain ⟨rest, hrest⟩ := h
        rw [← hrest]
        refine hit rest (ih rest.length ?_ rest rfl)
        rw [← hn, ← hrest, List.length_append]
        omega
      · exact skip c cs h (ih cs.length (by simp [← hn]) cs rfl)

theorem replace_pattern (hp : pat ≠ []) : replace pat new pat = new := by
  simpa using replace_hit new hp []

theorem replace_same (hp : pat ≠ []) (text : Text) : replace pat pat text = text := by
  induction text using replace_induction hp with
  | nil => rfl
  | hit rest ih => rw [replace_hit pat hp, ih]
  | skip c cs h ih => rw [replace_skip pat h, ih]

theorem replace_absent {text : Text} (h : ¬ pat <:+: text) : replace pat new text = text := by
  induction text with
  | nil => rfl
  | cons c cs ih =>
    rw [List.infix_cons_iff, not_or] at h
    rw [replace_skip new h.1, ih h.2]

theorem cut_front (before pat after : Text) :
    before ++ pat.dropLast <+: before ++ pat ++ after := by
  rw [List.append_assoc, List.prefix_append_right_inj]
  exact (List.dropLast_prefix pat).trans (List.prefix_append pat after)

theorem first_occurrence (hp : pat ≠ []) {text : Text} (h : pat <:+: text) :
    ∃ before after, text = before ++ pat ++ after ∧ ¬ pat <:+: before ++ pat.dropLast := by
  induction text using replace_induction hp with
  | nil => exact absurd (List.infix_nil.mp h) hp
  | hit rest _ =>
    refine ⟨[], rest, by simp, fun hin => ?_⟩
    have hle := hin.length_le
    have hpos := List.length_pos_iff.mpr hp
    simp at hle
    omega
  | skip c cs hc ih =>
    obtain ⟨before, after, heq, hfirst⟩ := ih ((List.infix_cons_iff.mp h).resolve_left hc)
    refine ⟨c::before, after, by simp [heq], fun hin => ?_⟩
    rcases List.infix_cons_iff.mp hin with hpre | hin
    · rw [heq] at hc
      exact hc (hpre.trans (cut_front (c::before) pat after))
    · exact hfirst hin

theorem replace_at (hp : pat ≠ []) {before : Text} (h : ¬ pat <:+: before ++ pat.dropLast)
    (after : Text) :
    replace pat new (before ++ pat ++ after) = before ++ new ++ replace pat new after := by
  induction before with
  | nil => simpa using replace_hit new hp after
  | cons c before ih =>
    rw [List.cons_append, List.infix_cons_iff, not_or] at h
    have hskip : ¬ pat <+: c::(before ++ pat ++ after) := by
      intro hpre
      have hcut := cut_front (c::before) pat after
      exact h.1 (List.prefix_of_prefix_length_le hpre hcut (by simp; omega))
    rw [List.cons_append, List.cons_append, replace_skip new hskip, ih h.2]
    simp

theorem replace_first (hp : pat ≠ []) {text : Text} (h : pat <:+: text) :
    ∃ before after, text = before ++ pat ++ after ∧
      replace pat new text = before ++ new ++ replace pat new after := by
  obtain ⟨before, after, rfl, hfirst⟩ := first_occurrence hp h
  exact ⟨before, after, rfl, replace_at new hp hfirst after⟩

theorem replace_length (hp : pat ≠ []) (text : Text) :
    ∃ k, (replace pat new text).length + k*pat.length = text.length + k*new.length := by
  induction text using replace_induction hp with
  | nil => exact ⟨0, by simp⟩
  | hit rest ih =>
    obtain ⟨k, hk⟩ := ih
    refine ⟨k+1, ?_⟩
    rw [replace_hit new hp]
    simp only [List.length_append, Nat.add_mul, Nat.one_mul]
    omega
  | skip c cs h ih =>
    obtain ⟨k, hk⟩ := ih
    refine ⟨k, ?_⟩
    rw [replace_skip new h]
    simp only [List.length_cons]
    omega

theorem replace_eq_nil {text : Text} (hp : pat ≠ []) (hto : new ≠ [])
    (h : replace pat new text = []) : text = [] := by
  induction text using replace_induction hp with
  | nil => rfl
  | hit rest _ =>
    rw [replace_hit new hp] at h
    exact absurd (List.append_eq_nil_iff.mp h).1 hto
  | skip c cs hc _ =>
    rw [replace_skip new hc] at h
    cases h

/-- The replacement text comes out whole only from the pattern itself, or from
a text in which there was nothing to replace. -/
theorem replace_eq_replacement {text : Text} (hp : pat ≠ []) (hto : new ≠ [])
    (h : replace pat new text = new) : text = pat ∨ text = new ∧ ¬ pat <:+: text := by
  by_cases hin : pat <:+: text
  · left
    obtain ⟨before, after, heq, hrep⟩ := replace_first new hp hin
    rw [hrep] at h
    have hlen := congrArg List.length h
    simp only [List.length_append] at hlen
    have hb : before = [] := List.length_eq_zero_iff.mp (by omega)
    have ha : replace pat new after = [] := List.length_eq_zero_iff.mp (by omega)
    rw [heq, hb, replace_eq_nil new hp hto ha]
    simp
  · right
    rw [replace_absent new hin] at h
    exact ⟨h, hin⟩

theorem replace_fixed {text : Text} (hp : pat ≠ []) (h : replace pat new text = text)
    (hin : pat <:+: text) : pat = new := by
  obtain ⟨before, after, heq, hrep⟩ := replace_first new hp hin
  have hrest : new ++ replace pat new after = pat ++ after := by
    rw [hrep, heq, List.append_assoc, List.append_assoc] at h
    exact List.append_cancel_left h
  obtain ⟨k, hk⟩ := replace_length new hp after
  have hlen := congrArg List.length hrest
  simp only [List.length_append] at hlen
  have hsame : new.length = pat.length := by
    rcases lt_trichotomy new.length pat.length with hlt | heq' | hgt
    · have := Nat.mul_le_mul_left k hlt.le
      omega
    · exact heq'
    · have := Nat.mul_le_mul_left k hgt.le
      omega
  exact (List.append_inj hrest hsame).1.symm

theorem not_prefix_of_head {c : Char} {cs : Text} (hp : pat ≠ []) (h : c ∉ pat) :
    ¬ pat <+: c::cs := by
  intro hpre
  cases pat with
  | nil => exact hp rfl
  | cons d ds =>
    have hd := (List.cons_prefix_cons.mp hpre).1
    exact h (by simp [hd])

theorem replace_left (hp : pat ≠ []) (left text : Text) (hl : ∀ c ∈ left, c ∉ pat) :
    replace pat new (left ++ text) = left ++ replace pat new text := by
  induction left with
  | nil => rfl
  | cons c cs ih =>
    rw [List.cons_append, replace_skip new (not_prefix_of_head hp (hl c (by simp))),
      ih (fun d hd => hl d (by simp [hd])), List.cons_append]

theorem prefix_of_prefix_append {text right : Text} (hr : ∀ c ∈ right, c ∉ pat)
    (h : pat <+: text ++ right) : pat <+: text := by
  have ht : text <+: text ++ right := List.prefix_append _ _
  rcases List.prefix_or_prefix_of_prefix h ht with hpre | ⟨middle, heq⟩
  · exact hpre
  · cases middle with
    | nil => simp [← heq]
    | cons c cs =>
      rw [← heq, List.prefix_append_right_inj] at h
      have hc : c ∈ right := h.subset (by simp)
      exact absurd (by simp [← heq]) (hr c hc)

theorem replace_right (hp : pat ≠ []) (text right : Text) (hr : ∀ c ∈ right, c ∉ pat) :
    replace pat new (text ++ right) = replace pat new text ++ right := by
  induction text using replace_induction hp with
  | nil => simpa using replace_left new hp right [] hr
  | hit rest ih => rw [List.append_assoc, replace_hit new hp, ih, replace_hit new hp, List.append_assoc]
  | skip c cs h ih =>
    have hc : ¬ pat <+: c::(cs ++ right) := fun hpre =>
      h (prefix_of_prefix_append hr (by simpa using hpre))
    rw [List.cons_append, replace_skip new hc, ih, replace_skip new h, List.cons_append]

theorem replace_context (hp : pat ≠ []) (left text right : Text)
    (hl : ∀ c ∈ left, c ∉ pat) (hr : ∀ c ∈ right, c ∉ pat) :
    replace pat new (left ++ text ++ right) = left ++ replace pat new text ++ right := by
  rw [replace_right new hp _ _ hr, replace_left new hp _ _ hl]

end Replace

end Foundation.RustText
