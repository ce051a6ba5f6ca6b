import FaninMcp.Foundation.RustText

/-!
# Texts tiled by a pattern

A text is tiled by a pattern when it is made of whole copies of the pattern and
of scalars foreign to it. Replacement from left to right finds exactly these
copies, so it leaves nothing but foreign scalars behind if and only if the text
was tiled; and replacing foreign text does not disturb a tiling.
-/

set_option autoImplicit false

namespace Foundation.TextTiling
open Foundation.RustText

inductive Tiled (pat : Text) (Foreign : Char → Prop) : Text → Prop
  | nil : Tiled pat Foreign []
  | copy {text : Text} : Tiled pat Foreign text → Tiled pat Foreign (pat ++ text)
  | foreign {c : Char} {text : Text} : Foreign c → Tiled pat Foreign text →
      Tiled pat Foreign (c::text)

section Scalars

theorem mem_replace_iff {pat new : Text} {c : Char} (hp : pat ≠ []) (hpat : c ∉ pat)
    (hnew : c ∉ new) (text : Text) : c ∈ replace pat new text ↔ c ∈ text := by
  induction text using replace_induction hp with
  | nil => simp
  | hit rest ih =>
    rw [replace_hit new hp, List.mem_append, List.mem_append, ih]
    tauto
  | skip d ds h ih => rw [replace_skip new h, List.mem_cons, List.mem_cons, ih]

theorem replace_append_inv {pat new : Text} (hp : pat ≠ []) (hn : new ≠ []) {stretch rest text : Text}
    (hnew : ∀ c ∈ stretch, c ∉ new) (h : replace pat new text = stretch ++ rest) :
    ∃ after, text = stretch ++ after ∧ replace pat new after = rest := by
  induction stretch generalizing text with
  | nil => exact ⟨text, rfl, h⟩
  | cons d stretch ih =>
    induction text using replace_induction hp with
    | nil => cases h
    | hit after _ =>
      obtain ⟨e, es, rfl⟩ := List.exists_cons_of_ne_nil hn
      rw [replace_hit _ hp] at h
      have hd := (List.cons.inj h).1
      exact absurd (by simp [hd]) (hnew d (by simp))
    | skip c cs hc _ =>
      rw [replace_skip new hc] at h
      obtain ⟨rfl, hrest⟩ := List.cons.inj h
      obtain ⟨after, rfl, hafter⟩ := ih (fun x hx => hnew x (by simp [hx])) hrest
      exact ⟨after, rfl, hafter⟩

end Scalars

section Tilings
variable {pat : Text} {Foreign : Char → Prop}

theorem tiled_own {c : Char} (hc : ¬ Foreign c) {text : Text} (h : Tiled pat Foreign (c::text)) :
    ∃ rest, c::text = pat ++ rest ∧ Tiled pat Foreign rest := by
  generalize heq : c::text = whole at h
  cases h with
  | nil => cases heq
  | copy h => exact ⟨_, rfl, h⟩
  | foreign hd _ =>
    rw [← (List.cons.inj heq).1] at hd
    exact absurd hd hc

theorem infix_of_tiled {text : Text} (h : Tiled pat Foreign text) {c : Char} (hc : c ∈ text)
    (hnot : ¬ Foreign c) : pat <:+: text := by
  induction h with
  | nil => cases hc
  | copy _ _ => exact (List.prefix_append _ _).isInfix
  | foreign hd _ ih =>
    rcases List.mem_cons.mp hc with rfl | hc
    · exact absurd hd hnot
    · exact (ih hc).trans (List.suffix_cons _ _).isInfix

variable (hp : pat ≠ []) (hown : ∀ c ∈ pat, ¬ Foreign c)
include hp hown

theorem tiled_cons {c : Char} (hc : Foreign c) (text : Text) :
    Tiled pat Foreign (c::text) ↔ Tiled pat Foreign text := by
  constructor
  · intro h
    generalize heq : c::text = whole at h
    cases h with
    | nil => cases heq
    | copy h =>
      obtain ⟨d, ds, rfl⟩ := List.exists_cons_of_ne_nil hp
      rw [(List.cons.inj heq).1] at hc
      exact absurd hc (hown d (by simp))
    | foreign _ h =>
      rw [(List.cons.inj heq).2]
      exact h
  · exact Tiled.foreign hc

theorem tiled_append_left {left : Text} (hl : ∀ c ∈ left, Foreign c) (text : Text) :
    Tiled pat Foreign (left ++ text) ↔ Tiled pat Foreign text := by
  induction left with
  | nil => rfl
  | cons c left ih =>
    rw [List.cons_append, tiled_cons hp hown (hl c (by simp))]
    exact ih fun d hd => hl d (by simp [hd])

theorem tiled_of_foreign {text : Text} (h : ∀ c ∈ text, Foreign c) : Tiled pat Foreign text := by
  have := (tiled_append_left hp hown h []).mpr .nil
  rwa [List.append_nil] at this

theorem tiled_append_right {right : Text} (hr : ∀ c ∈ right, Foreign c) (text : Text) :
    Tiled pat Foreign (text ++ right) ↔ Tiled pat Foreign text := by
  constructor
  · intro h
    generalize heq : text ++ right = whole at h
    induction h generalizing text with
    | nil =>
      rw [(List.append_eq_nil_iff.mp heq).1]
      exact .nil
    | copy hrest ih =>
      rcases List.append_eq_append_iff.mp heq with ⟨middle, hpat, hright⟩ | ⟨middle, htext, hrest'⟩
      · have hm : middle = [] := by
          refine List.eq_nil_iff_forall_not_mem.mpr fun c hc => ?_
          exact hown c (by simp [hpat, hc]) (hr c (by simp [hright, hc]))
        rw [hm, List.append_nil] at hpat
        rw [← hpat]
        have hcopy : Tiled pat Foreign (pat ++ []) := .copy .nil
        rwa [List.append_nil] at hcopy
      · rw [htext]
        exact .copy (ih middle hrest'.symm)
    | foreign hc hrest ih =>
      cases text with
      | nil => exact .nil
      | cons d ds =>
        obtain ⟨rfl, hds⟩ := List.cons.inj heq
        exact .foreign hc (ih ds hds)
  · intro h
    induction h with
    | nil => exact tiled_of_foreign hp hown hr
    | copy _ ih =>
      rw [List.append_assoc]
      exact .copy ih
    | foreign hc _ ih => exact .foreign hc ih

theorem replace_foreign_iff {new : Text} (hnew : ∀ c ∈ new, Foreign c) (text : Text) :
    (∀ c ∈ replace pat new text, Foreign c) ↔ Tiled pat Foreign text := by
  constructor
  · induction text using replace_induction hp with
    | nil => exact fun _ => .nil
    | hit rest ih =>
      rw [replace_hit new hp]
      exact fun h => .copy (ih fun c hc => h c (by simp [hc]))
    | skip c cs hc ih =>
      rw [replace_skip new hc]
      exact fun h => .foreign (h c (by simp)) (ih fun d hd => h d (by simp [hd]))
  · intro h
    induction h with
    | nil => simp
    | copy _ ih =>
      rw [replace_hit new hp]
      intro c hc
      rcases List.mem_append.mp hc with hc | hc
      · exact hnew c hc
      · exact ih c hc
    | foreign hc _ ih =>
      rw [replace_skip new (not_prefix_of_head hp fun hin => hown _ hin hc)]
      intro d hd
      rcases List.mem_cons.mp hd with rfl | hd
      · exact hc
      · exact ih d hd

theorem tiled_replace {other new : Text} (ho : other ≠ []) (hn : new ≠ [])
    (hother : ∀ c ∈ other, Foreign c) (hnew : ∀ c ∈ new, Foreign c) (text : Text) :
    Tiled pat Foreign (replace other new text) ↔ Tiled pat Foreign text := by
  have hapart : ∀ c ∈ pat, c ∉ other := fun c hc hin => hown c hc (hother c hin)
  have hapart' : ∀ c ∈ pat, c ∉ new := fun c hc hin => hown c hc (hnew c hin)
  induction hlen : text.length using Nat.strong_induction_on generalizing text with
  | _ n ih =>
    cases text with
    | nil => simp
    | cons c cs =>
      by_cases hpre : other <+: c::cs
      · obtain ⟨rest, hrest⟩ := hpre
        have hpos := List.length_pos_iff.mpr ho
        have hshort : rest.length < n := by
          rw [← hlen, ← hrest, List.length_append]
          omega
        rw [← hrest, replace_hit new ho, tiled_append_left hp hown hnew,
          tiled_append_left hp hown hother]
        exact ih _ hshort rest rfl
      · rw [replace_skip new hpre]
        by_cases hc : Foreign c
        · rw [tiled_cons hp hown hc, tiled_cons hp hown hc]
          exact ih _ (by simp [← hlen]) cs rfl
        · have hcut : ∀ after, c::cs = pat ++ after → after.length < n := by
            intro after heq
            have hpos := List.length_pos_iff.mpr hp
            rw [← hlen, heq, List.length_append]
            omega
          constructor
          · intro h
            obtain ⟨rest, heq, hrest⟩ := tiled_own hc h
            rw [← replace_skip new hpre] at heq
            obtain ⟨after, hafter, hrep⟩ := replace_append_inv ho hn hapart' heq
            rw [← hrep] at hrest
            rw [hafter]
            exact .copy ((ih _ (hcut after hafter) after rfl).mp hrest)
          · intro h
            obtain ⟨rest, heq, hrest⟩ := tiled_own hc h
            rw [← replace_skip new hpre, heq, replace_left new ho pat rest hapart]
            exact .copy ((ih _ (hcut rest heq) rest rfl).mpr hrest)

end Tilings

end Foundation.TextTiling
