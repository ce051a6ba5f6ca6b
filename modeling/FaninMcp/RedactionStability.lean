import FaninMcp.Foundation.TextMasking
import FaninMcp.Redaction

/-!
# Redacting twice

A line is redacted when it is captured and again when it is appended to the log.
The second pass finds nothing as long as no marker, put in place of one secret,
makes up another one with the text around it.
-/

set_option autoImplicit false

namespace FaninMcp.RedactionStability
open Foundation.RustText Foundation.TextMasking FaninMcp.Redaction

/-- One pass leaves no secret, and so nothing for another one to change. -/
def Stable (S : SecretSet) : Prop :=
  ∀ order, IterationOf order S.values → ∀ text : Text,
    (∀ t ∈ S.values, ¬ t <:+: redact order text) ∧
    ∀ order', IterationOf order' S.values → redact order' (redact order text) = redact order text

/-- No secret lies in the marker, holds it or begins as the marker ends. Where
one ends as the marker begins, no secret put behind its start is masked there:
an occurrence begins earlier, or the secret to be made up is there already. -/
structure Unjoined (S : SecretSet) : Prop where
  behind : ∀ t ∈ S.values, ClearBehind marker t
  uncompleted : ∀ s ∈ S.values, ∀ t ∈ S.values, ∀ start rest, t = start ++ rest → rest ≠ [] →
    rest <+: marker → s <:+: start ++ s.dropLast ∨ s ≠ t ∧ t <:+: start ++ s

section Sufficiency
variable {S : SecretSet} (h : Unjoined S)
include h

theorem not_completed {s t text : Text} (hs : s ∈ S.values) (ht : t ∈ S.values)
    (hout : s = t ∨ ¬ t <:+: text) : ¬ Completed marker s t text := by
  rintro ⟨start, rest, heq, hrest, hmarker, htext, hfirst⟩
  rcases h.uncompleted s hs t ht start rest heq hrest hmarker with hearlier | ⟨hne, hthere⟩
  · exact hfirst hearlier
  · exact (hout.resolve_left hne) (hthere.trans htext)

theorem not_infix_redact {order : List Text} (horder : ∀ s ∈ order, s ∈ S.values) {t : Text}
    (ht : t ∈ S.values) {text : Text} (hout : t ∈ order ∨ ¬ t <:+: text) :
    ¬ t <:+: redact order text := by
  induction order generalizing text with
  | nil => simpa using hout
  | cons s order ih =>
    have hs := horder s (by simp)
    have hrest : ∀ r ∈ order, r ∈ S.values := fun r hr => horder r (by simp [hr])
    rw [redact_cons (secret_ne_nil hs)]
    refine ih hrest ?_
    by_cases heq : t = s
    · subst heq
      exact Or.inr (not_infix_replace_self (h.behind t ht) (secret_ne_nil ht)
        (fun text => not_completed h ht ht (Or.inl rfl)) text)
    · rcases hout with hin | habsent
      · exact Or.inl ((List.mem_cons.mp hin).resolve_left heq)
      · refine Or.inr fun hin => ?_
        rcases infix_replace (secret_ne_nil hs) (h.behind t ht) hin with hthere | hcompleted
        · exact habsent hthere
        · exact not_completed h hs ht (Or.inr habsent) hcompleted

theorem stable_of_unjoined : Stable S := by
  intro order ho text
  have hclean : ∀ t ∈ S.values, ¬ t <:+: redact order text := fun t ht =>
    not_infix_redact h (fun s hs => (ho.mem s).mp hs) ht (Or.inl ((ho.mem t).mpr ht))
  refine ⟨hclean, fun order' ho' => redact_untouched ?_ ?_⟩
  · exact fun s hs => secret_ne_nil ((ho'.mem s).mp hs)
  · exact fun s hs => Or.inr (hclean s ((ho'.mem s).mp hs))

end Sufficiency

section Necessity
variable {S : SecretSet}

/-- These secrets can come last, the others being absent from what is written
in the characters of these. -/
def Separable (S : SecretSet) (last : List Text) : Prop :=
  ∃ first, IterationOf (first ++ last) S.values ∧
    ∀ text : Text, (∀ c ∈ text, ∃ s ∈ last, c ∈ s) → ∀ r ∈ first, ¬ r <:+: text

theorem redact_last (h : Stable S) {last : List Text} (hsep : Separable S last) (text : Text)
    (htext : ∀ c ∈ text, ∃ s ∈ last, c ∈ s) {t : Text} (ht : t ∈ S.values) :
    ¬ t <:+: redact last text := by
  obtain ⟨first, hiter, hfirst⟩ := hsep
  have hclean := (h _ hiter text).1 t ht
  rwa [redact_append, redact_untouched
    (fun s hs => secret_ne_nil ((hiter.mem s).mp (List.mem_append_left last hs)))
    (fun s hs => Or.inr (hfirst text htext s hs))] at hclean

theorem redact_single (h : Stable S) {t : Text} (ht : t ∈ S.values) (hsep : Separable S [t])
    (text : Text) (htext : ∀ c ∈ text, c ∈ t) : ¬ t <:+: replace t marker text := by
  have hclean := redact_last h hsep text (by simpa using htext) ht
  rwa [redact_cons (secret_ne_nil ht), redact_nil] at hclean

theorem behind_of_stable (h : Stable S) {t : Text} (ht : t ∈ S.values) (hsep : Separable S [t]) :
    ClearBehind marker t := by
  have hne := secret_ne_nil ht
  have hinside : ¬ t <:+: marker := by
    have hclean := redact_single h ht hsep t fun _ hc => hc
    rwa [replace_pattern marker hne] at hclean
  refine ⟨hinside, fun haround => ?_, fun u hu hfront hback => ?_⟩
  · obtain ⟨a, b, rfl, hfirst⟩ := first_occurrence marker_ne_nil haround
    have hclean := redact_single h ht hsep (a ++ (a ++ marker ++ b) ++ b) (by simp)
    have hshort : ¬ a ++ marker ++ b <:+: b := fun hin => by
      have hle := hin.length_le
      have hpos := List.length_pos_iff.mpr marker_ne_nil
      simp only [List.length_append] at hle
      omega
    rw [replace_at marker hne (first_around hfirst), replace_absent marker hshort] at hclean
    exact hclean List.infix_rfl
  · obtain ⟨v, rfl⟩ := hfront
    obtain ⟨w, hw⟩ := hback
    have hclean := redact_single h ht hsep (u ++ v ++ v) (by simp)
    have hshort : ¬ u ++ v <:+: v := fun hin => by
      have hle := hin.length_le
      have hpos := List.length_pos_iff.mpr hu
      rw [List.length_append] at hle
      omega
    rw [replace_hit marker hne, replace_absent marker hshort, ← hw, List.append_assoc] at hclean
    exact hclean (List.suffix_append w _).isInfix

theorem uncompleted_of_stable (h : Stable S) {s t : Text} (hs : s ∈ S.values) (ht : t ∈ S.values)
    (hself : s = t → Separable S [t]) (hpair : s ≠ t → Separable S [t, s]) {start rest : Text}
    (heq : t = start ++ rest) (hmarker : rest <+: marker) :
    s <:+: start ++ s.dropLast ∨ s ≠ t ∧ t <:+: start ++ s := by
  have hne := secret_ne_nil hs
  obtain ⟨m, hm⟩ := hmarker
  have hmade : t <:+: start ++ marker := ⟨[], m, by simp [heq, ← hm]⟩
  by_contra hnot
  rw [not_or, not_and] at hnot
  obtain ⟨hfirst, hthere⟩ := hnot
  have hmasked : replace s marker (start ++ s) = start ++ marker := by
    simpa using replace_at marker hne hfirst []
  by_cases hst : s = t
  · subst hst
    have hclean := redact_single h hs (hself rfl) (start ++ s) (by simp [heq])
    exact hclean (hmasked ▸ hmade)
  · have hclean := redact_last h (hpair hst) (start ++ s) (by simp [heq]; tauto) ht
    rw [redact_cons (secret_ne_nil ht), replace_absent marker (hthere hst), redact_cons hne,
      redact_nil, hmasked] at hclean
    exact hclean hmade

theorem redact_eq_or_marker {order : List Text} (hne : ∀ s ∈ order, s ≠ []) (text : Text) :
    redact order text = text ∨ marker <:+: redact order text := by
  induction order generalizing text with
  | nil => exact Or.inl rfl
  | cons s order ih =>
    have hs := hne s (by simp)
    rw [redact_cons hs]
    rcases ih (fun t ht => hne t (by simp [ht])) (replace s marker text) with hsame | hmarker
    · rw [hsame]
      by_cases hin : s <:+: text
      · obtain ⟨before, after, _, hrep⟩ := replace_first marker hs hin
        exact Or.inr ⟨before, _, hrep.symm⟩
      · exact Or.inl (replace_absent marker hin)
    · exact Or.inr hmarker

theorem not_inside_of_stable (h : Stable S) {t : Text} (ht : t ∈ S.values) : ¬ t <:+: marker := by
  intro hinside
  have hiter : IterationOf ((S.values.erase t).toList ++ [t]) S.values := iterationOf_last ht
  have hne : ∀ s ∈ (S.values.erase t).toList, s ≠ [] :=
    fun s hs => secret_ne_nil (Finset.mem_of_mem_erase (Finset.mem_toList.mp hs))
  have hclean := (h _ hiter t).1 t ht
  rw [redact_append, redact_cons (secret_ne_nil ht), redact_nil] at hclean
  have hthere : t <:+: redact (S.values.erase t).toList t := by
    rcases redact_eq_or_marker hne t with hsame | hmarker
    · rw [hsame]
    · exact hinside.trans hmarker
  obtain ⟨before, after, _, hrep⟩ := replace_first marker (secret_ne_nil ht) hthere
  exact hclean (hinside.trans ⟨before, _, hrep.symm⟩)

theorem separable_of_disjoint {last : List Text} (hnodup : last.Nodup)
    (hlast : ∀ s ∈ last, s ∈ S.values)
    (h : ∀ r ∈ S.values, r ∉ last → ∀ s ∈ last, ∀ c ∈ r, c ∉ s) : Separable S last := by
  refine ⟨(S.values \ last.toFinset).toList, ⟨?_, fun t => ?_⟩, fun text htext r hr hin => ?_⟩
  · refine List.nodup_append.mpr ⟨Finset.nodup_toList _, hnodup, ?_⟩
    rintro r hr s hs rfl
    simp [hs] at hr
  · by_cases ht : t ∈ last
    · simp [ht, hlast t ht]
    · simp [ht]
  · simp only [Finset.mem_toList, Finset.mem_sdiff, List.mem_toFinset] at hr
    obtain ⟨c, cs, hc⟩ := List.exists_cons_of_ne_nil (secret_ne_nil hr.1)
    have hmem : c ∈ r := by simp [hc]
    obtain ⟨s, hs, hcs⟩ := htext c (hin.subset hmem)
    exact h r hr.1 hr.2 s hs c hmem hcs

theorem unjoined_of_stable (h : Stable S)
    (hself : ∀ t ∈ S.values, Separable S [t])
    (hpair : ∀ s ∈ S.values, ∀ t ∈ S.values, s ≠ t → Separable S [t, s]) : Unjoined S :=
  ⟨fun t ht => behind_of_stable h ht (hself t ht),
    fun s hs t ht _ _ heq _ hmarker =>
      uncompleted_of_stable h hs ht (fun _ => hself t ht) (hpair s hs t ht) heq hmarker⟩

end Necessity

section Exactness
variable {S : SecretSet}

theorem unjoined_mono {S' : SecretSet} (hsub : S'.values ⊆ S.values) (h : Unjoined S) :
    Unjoined S' :=
  ⟨fun t ht => h.behind t (hsub ht), fun s hs t ht => h.uncompleted s (hsub hs) t (hsub ht)⟩

def SecretSet.among (S : SecretSet) (chosen : List Text) : SecretSet where
  values := S.values ∩ chosen.toFinset
  nonempty := by simp [S.nonempty]

theorem mem_among {chosen : List Text} {t : Text} :
    t ∈ (SecretSet.among S chosen).values ↔ t ∈ S.values ∧ t ∈ chosen := by
  rw [SecretSet.among, Finset.mem_inter, List.mem_toFinset]

theorem separable_among {last : List Text} (hnodup : last.Nodup)
    (hlast : ∀ s ∈ last, s ∈ S.values) :
    Separable (SecretSet.among S last) last :=
  separable_of_disjoint hnodup (fun s hs => mem_among.mpr ⟨hlast s hs, hs⟩)
    fun _ hr hout => absurd (mem_among.mp hr).2 hout

end Exactness

/-- Redaction is stable when no marker makes up a secret. Conversely no marker
does when redaction is stable with these secrets and all fewer of them, and
when it is stable and no two of them have a character in common. In no case is
it stable with a secret that lies in the marker. -/
theorem redaction_stable_exact (S : SecretSet) :
    (Unjoined S → Stable S) ∧
    ((∀ S' : SecretSet, S'.values ⊆ S.values → Stable S') ↔ Unjoined S) ∧
    ((∀ s ∈ S.values, ∀ t ∈ S.values, s ≠ t → ∀ c ∈ s, c ∉ t) → (Stable S ↔ Unjoined S)) ∧
    (Stable S → ∀ t ∈ S.values, ¬ t <:+: marker) := by
  refine ⟨stable_of_unjoined,
    ⟨fun h => ?_, fun h S' hsub => stable_of_unjoined (unjoined_mono hsub h)⟩,
    fun hdisjoint => ⟨fun h => unjoined_of_stable h ?_ ?_, stable_of_unjoined⟩,
    fun h t ht => not_inside_of_stable h ht⟩
  · have hamong : ∀ chosen, Stable (SecretSet.among S chosen) :=
      fun chosen => h _ (Finset.inter_subset_left)
    refine ⟨fun t ht => ?_, fun s hs t ht start rest heq _ hmarker => ?_⟩
    · exact behind_of_stable (hamong [t]) (mem_among.mpr ⟨ht, by simp⟩)
        (separable_among (by simp) (by simpa using ht))
    · by_cases hst : s = t
      · subst hst
        exact uncompleted_of_stable (hamong [s]) (mem_among.mpr ⟨hs, by simp⟩)
          (mem_among.mpr ⟨ht, by simp⟩) (fun _ => separable_among (by simp) (by simpa using hs))
          (fun hne => absurd rfl hne) heq hmarker
      · exact uncompleted_of_stable (hamong [t, s]) (mem_among.mpr ⟨hs, by simp⟩)
          (mem_among.mpr ⟨ht, by simp⟩) (fun heq => absurd heq hst)
          (fun _ => separable_among (by simp [Ne.symm hst]) (by simp [hs, ht])) heq hmarker
  · intro t ht
    refine separable_of_disjoint (by simp) (by simpa using ht) fun r hr hout s hs => ?_
    obtain rfl := List.mem_singleton.mp hs
    exact hdisjoint r hr s ht (by simpa using hout)
  · intro s hs t ht hst
    have hlast : ∀ u ∈ [t, s], u ∈ S.values := by simp [hs, ht]
    exact separable_of_disjoint (by simp [Ne.symm hst]) hlast fun r hr hout u hu =>
      hdisjoint r hr u (hlast u hu) fun heq => hout (heq ▸ hu)

def shortLiteral : SecretSet := .only "E".toList (by decide)

/-- It is left in what takes its place. -/
theorem redaction_unstable : ¬ ∀ S, Stable S := by
  intro h
  have hclean := (h shortLiteral _ (iterationOf_only (by decide)) "E".toList).1 "E".toList
    (mem_only.mpr rfl)
  exact hclean (by decide)

end FaninMcp.RedactionStability
