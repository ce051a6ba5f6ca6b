import FaninMcp.Foundation.RustText

/-!
# Masked texts

Replacing patterns by a mask leaves the rest of a text as it was. A pattern that
cannot overlap the mask lies in an untouched part wherever it still occurs, so
masking brings no new occurrence of it about.
-/

set_option autoImplicit false

namespace Foundation.TextMasking
open Foundation.RustText

/-- In no text does an occurrence of the pattern overlap one of the mask. -/
structure ClearOf (mask t : Text) : Prop where
  not_inside : ¬ t <:+: mask
  not_around : ¬ mask <:+: t
  not_entering : ∀ u, u ≠ [] → u <:+ t → ¬ u <+: mask
  not_leaving : ∀ u, u ≠ [] → u <+: t → ¬ u <:+ mask

structure ClearBehind (mask t : Text) : Prop where
  not_inside : ¬ t <:+: mask
  not_around : ¬ mask <:+: t
  not_leaving : ∀ u, u ≠ [] → u <+: t → ¬ u <:+ mask

theorem ClearOf.behind {mask t : Text} (h : ClearOf mask t) : ClearBehind mask t :=
  ⟨h.not_inside, h.not_around, h.not_leaving⟩

/-- Some segments of the first text, of scalars that may be masked, are masks in
the second. -/
inductive Masked (mask : Text) (Maskable : Char → Prop) : Text → Text → Prop
  | nil : Masked mask Maskable [] []
  | keep (c : Char) {a b : Text} : Masked mask Maskable a b → Masked mask Maskable (c::a) (c::b)
  | hide {segment a b : Text} : segment ≠ [] → (∀ c ∈ segment, Maskable c) →
      Masked mask Maskable a b → Masked mask Maskable (segment ++ a) (mask ++ b)

theorem clearOf_of_disjoint {mask t : Text} (ht : t ≠ []) (hm : mask ≠ [])
    (h : ∀ c ∈ t, c ∉ mask) : ClearOf mask t := by
  have hapart : ∀ u, u ≠ [] → (∀ c ∈ u, c ∈ t) → ¬ ∀ c ∈ u, c ∈ mask := by
    intro u hu hin hall
    obtain ⟨c, cs, rfl⟩ := List.exists_cons_of_ne_nil hu
    exact h c (hin c (by simp)) (hall c (by simp))
  refine ⟨fun hin => hapart t ht (fun _ hc => hc) fun _ hc => hin.subset hc,
    fun hin => hapart mask hm (fun _ hc => hin.subset hc) fun _ hc => hc,
    fun u hu hs hp => hapart u hu (fun _ hc => hs.subset hc) fun _ hc => hp.subset hc,
    fun u hu hp hs => hapart u hu (fun _ hc => hp.subset hc) fun _ hc => hs.subset hc⟩

section Clear
variable {mask t : Text} (h : ClearOf mask t)
include h

theorem clearOf_ne_nil : t ≠ [] := by
  rintro rfl
  exact h.not_inside (List.nil_infix)

theorem clearOf_mask_ne_nil : mask ≠ [] := by
  rintro rfl
  exact h.not_around (List.nil_infix)

theorem clear_entering {u after : Text} (hu : u ≠ []) (hs : u <:+ t) : ¬ u <+: mask ++ after := by
  intro hp
  rcases List.prefix_or_prefix_of_prefix hp (List.prefix_append mask after) with hin | haround
  · exact h.not_entering u hu hs hin
  · exact h.not_around (haround.isInfix.trans hs.isInfix)

end Clear

section Behind
variable {mask t : Text} (h : ClearBehind mask t)
include h

theorem clear_leaving {u after : Text} (hu : u ≠ []) (hs : u <:+ mask) : ¬ t <+: u ++ after := by
  intro hp
  rcases List.prefix_or_prefix_of_prefix hp (List.prefix_append u after) with hin | haround
  · exact h.not_inside (hin.isInfix.trans hs.isInfix)
  · exact h.not_leaving u hu haround hs

theorem infix_behind_mask {after : Text} (hin : t <:+: mask ++ after) : t <:+: after := by
  have hall : ∀ u, u <:+ mask → t <:+: u ++ after → t <:+: after := by
    intro u
    induction u with
    | nil => exact fun _ hin => hin
    | cons c u ih =>
      intro hs hin
      rw [List.cons_append, List.infix_cons_iff] at hin
      rcases hin with hp | hin
      · exact absurd hp (clear_leaving h (List.cons_ne_nil c u) hs)
      · exact ih ((List.suffix_cons c u).trans hs) hin
  exact hall mask List.suffix_rfl hin

theorem replace_behind_mask (new after : Text) :
    replace t new (mask ++ after) = mask ++ replace t new after := by
  have hall : ∀ u, u <:+ mask → replace t new (u ++ after) = u ++ replace t new after := by
    intro u
    induction u with
    | nil => exact fun _ => rfl
    | cons c u ih =>
      intro hs
      have hp : ¬ t <+: c::u ++ after := clear_leaving h (List.cons_ne_nil c u) hs
      rw [List.cons_append] at hp ⊢
      rw [replace_skip new hp, ih ((List.suffix_cons c u).trans hs), List.cons_append]
  exact hall mask List.suffix_rfl

end Behind

section Masking
variable {mask t : Text} {Maskable : Char → Prop}

theorem masked_refl (text : Text) : Masked mask Maskable text text := by
  induction text with
  | nil => exact .nil
  | cons c text ih => exact .keep c ih

theorem masked_front (h : ClearOf mask t) {u : Text} (hs : u <:+ t) {a b : Text}
    (hm : Masked mask Maskable a (u ++ b)) : ∃ a', a = u ++ a' ∧ Masked mask Maskable a' b := by
  induction u generalizing a with
  | nil => exact ⟨a, rfl, hm⟩
  | cons c u ih =>
    generalize heq : c::u ++ b = whole at hm
    cases hm with
    | nil => cases heq
    | keep d hm =>
      obtain ⟨rfl, hrest⟩ := List.cons.inj heq
      obtain ⟨a', rfl, hm'⟩ := ih ((List.suffix_cons c u).trans hs) (hrest ▸ hm)
      exact ⟨a', rfl, hm'⟩
    | hide _ _ _ =>
      exact absurd ⟨b, heq⟩ (clear_entering h (List.cons_ne_nil c u) hs)

theorem masked_replace (h : ClearOf mask t) (ht : ∀ c ∈ t, Maskable c) {a b : Text}
    (hm : Masked mask Maskable a b) : Masked mask Maskable a (replace t mask b) := by
  have hne := clearOf_ne_nil h
  induction hlen : b.length using Nat.strong_induction_on generalizing a b with
  | _ n ih =>
    by_cases hp : t <+: b
    · obtain ⟨b', rfl⟩ := hp
      obtain ⟨a', rfl, hm'⟩ := masked_front h List.suffix_rfl hm
      have hpos := List.length_pos_iff.mpr hne
      rw [replace_hit mask hne]
      exact .hide hne ht (ih b'.length (by simp at hlen; omega) hm' rfl)
    · cases hm with
      | nil => exact .nil
      | keep c hm =>
        rw [replace_skip mask hp]
        exact .keep c (ih _ (by simp at hlen; omega) hm rfl)
      | hide hseg hall hm =>
        have hpos := List.length_pos_iff.mpr (clearOf_mask_ne_nil h)
        rw [replace_behind_mask h.behind]
        exact .hide hseg hall (ih _ (by simp at hlen; omega) hm rfl)

theorem infix_of_masked (h : ClearOf mask t) {a b : Text} (hm : Masked mask Maskable a b)
    (hin : t <:+: b) : t <:+: a := by
  induction hm with
  | nil => exact hin
  | @keep c a b hm ih =>
    rcases List.infix_cons_iff.mp hin with ⟨b', hb⟩ | hin
    · have hfront : Masked mask Maskable (c::a) (t ++ b') := hb ▸ .keep c hm
      obtain ⟨a', ha, _⟩ := masked_front h List.suffix_rfl hfront
      exact ⟨[], a', by rw [ha]; simp⟩
    · exact (ih hin).trans (List.suffix_cons c _).isInfix
  | hide _ _ _ ih => exact (ih (infix_behind_mask h.behind hin)).trans (List.suffix_append _ _).isInfix

end Masking

/-- Where a pattern holds the mask, it cannot run into its own next occurrence
before the mask does. -/
theorem first_around {mask a b : Text} (h : ¬ mask <:+: a ++ mask.dropLast) :
    ¬ a ++ mask ++ b <:+: a ++ (a ++ mask ++ b).dropLast := by
  rintro ⟨p, q, heq⟩
  have hmask : 0 < mask.length := List.length_pos_iff.mpr fun hnil => h (by simp [hnil])
  have hlength := congrArg List.length heq
  simp only [List.length_append, List.length_dropLast] at hlength
  have htext : p ++ (a ++ mask) <+: a ++ (a ++ mask ++ b) := by
    have hcut : p ++ (a ++ mask) <+: a ++ (a ++ mask ++ b).dropLast :=
      ⟨b ++ q, Eq.trans (by simp) heq⟩
    simpa using hcut.trans (cut_front a (a ++ mask ++ b) [])
  have hshift : a <+: p ++ a :=
    List.prefix_of_prefix_length_le (List.prefix_append a _)
      ((show p ++ a <+: p ++ (a ++ mask) by simp).trans htext) (by simp)
  obtain ⟨d, hd⟩ := hshift
  have hearlier : d ++ mask <+: a ++ mask ++ b := by
    rw [← List.append_assoc, ← hd, List.append_assoc] at htext
    exact (List.prefix_append_right_inj a).mp htext
  have hdlength := congrArg List.length hd
  simp only [List.length_append] at hdlength
  have hin : d ++ mask <+: a ++ mask.dropLast :=
    List.prefix_of_prefix_length_le hearlier (cut_front a mask b) (by simp; omega)
  exact h ((List.suffix_append d mask).isInfix.trans hin.isInfix)

section Completion
variable {mask s t : Text}

/-- The text holds a start of the pattern in front of the occurrence of `s` that
is masked first, and the mask begins with the rest of the pattern. -/
def Completed (mask s t text : Text) : Prop :=
  ∃ start rest, t = start ++ rest ∧ rest ≠ [] ∧ rest <+: mask ∧ start ++ s <:+: text ∧
    ¬ s <:+: start ++ s.dropLast

theorem completed_mono {text text' : Text} (hin : text <:+: text')
    (h : Completed mask s t text) : Completed mask s t text' := by
  obtain ⟨start, rest, ht, hrest, hmask, htext, hfirst⟩ := h
  exact ⟨start, rest, ht, hrest, hmask, htext.trans hin, hfirst⟩

theorem prefix_replace (hs : s ≠ []) (haround : ¬ mask <:+: t) {text : Text}
    (h : t <+: replace s mask text) : t <+: text ∨ Completed mask s t text := by
  by_cases hin : s <:+: text
  · obtain ⟨before, after, rfl, hfirst⟩ := first_occurrence hs hin
    rw [replace_at mask hs hfirst, List.append_assoc] at h
    rcases List.prefix_or_prefix_of_prefix h (List.prefix_append before _) with hbefore | ⟨rest, rfl⟩
    · exact Or.inl (hbefore.trans (by simp))
    · have hrest := (List.prefix_append_right_inj before).mp h
      by_cases hnil : rest = []
      · exact Or.inl (by simp [hnil])
      · refine Or.inr ⟨before, rest, rfl, hnil, ?_, (List.prefix_append _ _).isInfix, hfirst⟩
        refine (List.prefix_or_prefix_of_prefix hrest (List.prefix_append mask _)).resolve_right ?_
        exact fun hmask => haround (hmask.isInfix.trans (List.suffix_append _ _).isInfix)
  · rw [replace_absent mask hin] at h
    exact Or.inl h

theorem infix_replace (hs : s ≠ []) (ht : ClearBehind mask t) {text : Text}
    (h : t <:+: replace s mask text) : t <:+: text ∨ Completed mask s t text := by
  induction text using replace_induction hs with
  | nil => exact Or.inl h
  | hit rest ih =>
    have hrest : rest <:+: s ++ rest := (List.suffix_append s rest).isInfix
    rw [replace_hit mask hs] at h
    exact (ih (infix_behind_mask ht h)).imp (·.trans hrest) (completed_mono hrest)
  | skip c cs hc ih =>
    have hcs : cs <:+: c::cs := (List.suffix_cons c cs).isInfix
    have hskip := replace_skip mask hc
    rw [hskip, List.infix_cons_iff, ← hskip] at h
    rcases h with hfront | hin
    · exact (prefix_replace hs ht.not_around hfront).imp_left List.IsPrefix.isInfix
    · exact (ih hin).imp (·.trans hcs) (completed_mono hcs)

theorem not_infix_replace_self (ht : ClearBehind mask t) (hne : t ≠ [])
    (hself : ∀ text, ¬ Completed mask t t text) (text : Text) : ¬ t <:+: replace t mask text := by
  induction text using replace_induction hne with
  | nil => exact fun hin => hne (List.infix_nil.mp hin)
  | hit rest ih =>
    rw [replace_hit mask hne]
    exact fun hin => ih (infix_behind_mask ht hin)
  | skip c cs hc ih =>
    have hskip := replace_skip mask hc
    intro hin
    rw [hskip, List.infix_cons_iff, ← hskip] at hin
    rcases hin with hfront | hin
    · exact (prefix_replace hne ht.not_around hfront).elim hc (hself _)
    · exact ih hin

theorem not_infix_replace (h : ClearOf mask t) (text : Text) : ¬ t <:+: replace t mask text := by
  apply not_infix_replace_self h.behind (clearOf_ne_nil h)
  rintro text ⟨start, rest, ht, hrest, hmask, -⟩
  exact h.not_entering rest hrest ⟨start, ht.symm⟩ hmask

end Completion

end Foundation.TextMasking
