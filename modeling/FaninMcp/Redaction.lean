import FaninMcp.Foundation.RustText
import Mathlib.Data.Finset.Basic
import Mathlib.Data.Finset.Dedup

/-!
# Redacting registered secrets

Every secret resolved at startup is registered, and log text is rewritten by
replacing one registered secret after another in the order the hash set happens
to be iterated in. Each replacement runs over the text its predecessors left,
so one secret inside another, or inside the marker, spoils the result.
-/

set_option autoImplicit false

namespace FaninMcp.Redaction
open Foundation.RustText

structure SecretSet where
  values : Finset Text
  nonempty : [] ∉ values

def SecretSet.registerSecret (S : SecretSet) (secret : Text) : SecretSet :=
  if h : secret = [] then S
  else ⟨insert secret S.values, by simp [S.nonempty, Ne.symm h]⟩

def marker : Text := "[REDACTED]".toList

/-- The loop over the set, in the order in which it is iterated. -/
def redact (order : List Text) (text : Text) : Text :=
  order.foldl (fun out secret => if secret.isEmpty then out else replace secret marker out) text

/-- One iteration of a hash set: every member once, in any order. -/
structure IterationOf (order : List Text) (set : Finset Text) : Prop where
  nodup : order.Nodup
  mem : ∀ text, text ∈ order ↔ text ∈ set

theorem iterationOf_toList (set : Finset Text) : IterationOf set.toList set :=
  ⟨set.nodup_toList, fun _ => Finset.mem_toList⟩

def SecretSet.only (s : Text) (h : s ≠ []) : SecretSet := ⟨{s}, by simpa using h.symm⟩

theorem mem_only {s t : Text} {h : s ≠ []} : t ∈ (SecretSet.only s h).values ↔ t = s := by
  simp [SecretSet.only]

theorem iterationOf_only {s : Text} (h : s ≠ []) : IterationOf [s] (SecretSet.only s h).values :=
  ⟨by simp, fun t => by simp [mem_only]⟩

section Fold

@[simp] theorem redact_nil (text : Text) : redact [] text = text := rfl

theorem redact_cons {secret : Text} (h : secret ≠ []) (order : List Text) (text : Text) :
    redact (secret::order) text = redact order (replace secret marker text) := by
  simp [redact, h]

theorem redact_append (left right : List Text) (text : Text) :
    redact (left ++ right) text = redact right (redact left text) := by
  simp [redact]

theorem redact_untouched {order : List Text} {text : Text} (hne : ∀ s ∈ order, s ≠ [])
    (h : ∀ s ∈ order, s = marker ∨ ¬ s <:+: text) : redact order text = text := by
  induction order with
  | nil => rfl
  | cons s order ih =>
    rw [redact_cons (hne s (by simp))]
    have hs : replace s marker text = text := by
      rcases h s (by simp) with rfl | hs
      · exact replace_same (hne _ (by simp)) text
      · exact replace_absent marker hs
    rw [hs]
    exact ih (fun t ht => hne t (by simp [ht])) (fun t ht => h t (by simp [ht]))

theorem redact_context {order : List Text} (hne : ∀ s ∈ order, s ≠ []) {p q : Text}
    (hp : ∀ c ∈ p, ∀ s ∈ order, c ∉ s) (hq : ∀ c ∈ q, ∀ s ∈ order, c ∉ s) (text : Text) :
    redact order (p ++ text ++ q) = p ++ redact order text ++ q := by
  induction order generalizing text with
  | nil => rfl
  | cons s order ih =>
    have hs := hne s (by simp)
    rw [redact_cons hs, redact_cons hs, replace_context marker hs p text q
      (fun c hc => hp c hc s (by simp)) (fun c hc => hq c hc s (by simp))]
    exact ih (fun t ht => hne t (by simp [ht])) (fun c hc t ht => hp c hc t (by simp [ht]))
      (fun c hc t ht => hq c hc t (by simp [ht])) _

theorem marker_ne_nil : marker ≠ [] := by decide

theorem eq_of_redact_eq {order : List Text} {text out : Text} (hne : ∀ s ∈ order, s ≠ [])
    (hout : ¬ marker <:+: out) (h : redact order text = out) : text = out := by
  induction order generalizing text with
  | nil => exact h
  | cons s order ih =>
    have hs := hne s (by simp)
    rw [redact_cons hs] at h
    have hmid := ih (fun t ht => hne t (by simp [ht])) h
    by_cases hin : s <:+: text
    · obtain ⟨before, after, _, hrep⟩ := replace_first marker hs hin
      exact absurd ⟨before, _, hrep.symm.trans hmid⟩ hout
    · rwa [replace_absent marker hin] at hmid

theorem marker_infix_replace {secret text : Text} (hs : secret ≠ []) (h : marker <:+: text) :
    marker <:+: replace secret marker text := by
  by_cases hin : secret <:+: text
  · obtain ⟨before, after, _, hrep⟩ := replace_first marker hs hin
    exact ⟨before, _, hrep.symm⟩
  · rwa [replace_absent marker hin]

/-- A text that holds the marker among other things stays such a text, as long
as no secret does. -/
theorem redact_ne_marker {order : List Text} {text : Text} (hne : ∀ s ∈ order, s ≠ [])
    (hclean : ∀ s ∈ order, marker <:+: s → s = marker) (hin : marker <:+: text)
    (htext : text ≠ marker) : redact order text ≠ marker := by
  induction order generalizing text with
  | nil => exact htext
  | cons s order ih =>
    have hs := hne s (by simp)
    rw [redact_cons hs]
    refine ih (fun t ht => hne t (by simp [ht])) (fun t ht => hclean t (by simp [ht]))
      (marker_infix_replace hs hin) fun heq => ?_
    rcases replace_eq_replacement marker hs marker_ne_nil heq with rfl | ⟨h, _⟩
    · exact htext (hclean _ (by simp) hin)
    · exact htext h

end Fold

/-- A secret that appears whole is replaced by the marker, whatever the order
of iteration and whatever surrounds it. -/
def WholeSecretRedaction (S : SecretSet) : Prop :=
  ∀ order, IterationOf order S.values → ∀ s ∈ S.values, ∀ p q : Text,
    (∀ c ∈ p ++ q, ∀ t ∈ S.values, c ∉ t) →
      redact order (p ++ s ++ q) = p ++ marker ++ q

/-- No secret but the marker itself lies inside another secret, or inside the
marker when there is another secret. -/
def Isolated (S : SecretSet) : Prop :=
  ∀ r ∈ S.values, r ≠ marker → ∀ s ∈ S.values, r ≠ s → ¬ r <:+: s ∧ ¬ r <:+: marker

section Exactness
variable {S : SecretSet}

theorem secret_ne_nil {s : Text} (hs : s ∈ S.values) : s ≠ [] :=
  fun h => S.nonempty (h ▸ hs)

theorem redact_whole (h : Isolated S) {order : List Text} (ho : IterationOf order S.values)
    {s : Text} (hs : s ∈ S.values) : redact order s = marker := by
  obtain ⟨before, after, rfl⟩ := List.append_of_mem ((ho.mem s).mpr hs)
  have hmem : ∀ t ∈ before ++ s::after, t ∈ S.values := fun t ht => (ho.mem t).mp ht
  have hother : ∀ t, t ∈ before ∨ t ∈ after → t ≠ s := by
    rintro t ht rfl
    exact (List.nodup_middle.mp ho.nodup).notMem (List.mem_append.mpr ht)
  have hclear : ∀ t, t ∈ before ∨ t ∈ after → t = marker ∨ ¬ t <:+: s ∧ ¬ t <:+: marker := by
    intro t ht
    rw [or_iff_not_imp_left]
    exact fun hm => h t (hmem t (by simp; tauto)) hm s hs (hother t ht)
  have hne : ∀ t ∈ before ++ s::after, t ≠ [] := fun t ht => secret_ne_nil (hmem t ht)
  rw [redact_append, redact_untouched (fun t ht => hne t (by simp [ht]))
      (fun t ht => (hclear t (Or.inl ht)).imp_right And.left),
    redact_cons (secret_ne_nil hs), replace_pattern marker (secret_ne_nil hs)]
  exact redact_untouched (fun t ht => hne t (by simp [ht]))
    (fun t ht => (hclear t (Or.inr ht)).imp_right And.right)

theorem wholeSecretRedaction_of_isolated (h : Isolated S) : WholeSecretRedaction S := by
  intro order ho s hs p q hpq
  rw [redact_context (fun t ht => secret_ne_nil ((ho.mem t).mp ht)) ?_ ?_, redact_whole h ho hs]
  · exact fun c hc t ht => hpq c (by simp [hc]) t ((ho.mem t).mp ht)
  · exact fun c hc t ht => hpq c (by simp [hc]) t ((ho.mem t).mp ht)

theorem redact_of_whole (h : WholeSecretRedaction S) {order : List Text}
    (ho : IterationOf order S.values) {s : Text} (hs : s ∈ S.values) :
    redact order s = marker := by
  simpa using h order ho s hs [] [] (by simp)

theorem iterationOf_last {set : Finset Text} {r : Text} (hr : r ∈ set) :
    IterationOf ((set.erase r).toList ++ [r]) set := by
  refine ⟨?_, fun t => ?_⟩
  · rw [List.nodup_append]
    refine ⟨Finset.nodup_toList _, by simp, ?_⟩
    simp +contextual
  · by_cases ht : t = r
    · simp [ht, hr]
    · simp [ht]

theorem not_infix_marker (h : WholeSecretRedaction S) {r s : Text} (hr : r ∈ S.values)
    (hm : r ≠ marker) (hs : s ∈ S.values) (hrs : r ≠ s) : ¬ r <:+: marker := by
  intro hin
  have hiter := iterationOf_last hr
  have hne : ∀ t ∈ (S.values.erase r).toList, t ≠ [] :=
    fun t ht => secret_ne_nil (Finset.mem_of_mem_erase (Finset.mem_toList.mp ht))
  have hout := redact_of_whole h hiter hs
  rw [redact_append, redact_cons (secret_ne_nil hr), redact_nil] at hout
  have hmarker : ¬ marker <:+: r := fun h =>
    hm (hin.sublist.antisymm h.sublist)
  rcases replace_eq_replacement marker (secret_ne_nil hr) marker_ne_nil hout with heq | ⟨heq, habs⟩
  · exact hrs (eq_of_redact_eq hne hmarker heq).symm
  · rw [heq] at habs
    exact habs hin

theorem not_infix_secret (h : WholeSecretRedaction S) {r s : Text} (hr : r ∈ S.values)
    (hm : r ≠ marker) (hs : s ∈ S.values) (hrs : r ≠ s)
    (hclean : ∀ t ∈ S.values, t ≠ r → t ≠ s → marker <:+: t → t = marker) : ¬ r <:+: s := by
  intro hin
  let rest := ((S.values.erase r).erase s).toList
  have hrest : ∀ t ∈ rest, t ∈ S.values ∧ t ≠ r ∧ t ≠ s := by
    intro t ht
    simp only [rest, Finset.mem_toList, Finset.mem_erase] at ht
    exact ⟨ht.2.2, ht.2.1, ht.1⟩
  have hiter : IterationOf (r::s::rest) S.values := by
    refine ⟨?_, fun t => ?_⟩
    · simp [rest, hrs, Finset.nodup_toList]
    · by_cases h1 : t = r
      · simp [h1, hr]
      · by_cases h2 : t = s
        · simp [h2, hs]
        · simp [rest, h1, h2]
  have hout := redact_of_whole h hiter hs
  have hr0 := secret_ne_nil hr
  have hs0 := secret_ne_nil hs
  rw [redact_cons hr0, redact_cons hs0] at hout
  obtain ⟨before, after, _, hrep⟩ := replace_first marker hr0 hin
  have hfirst : marker <:+: replace r marker s := ⟨before, _, hrep.symm⟩
  have hchanged : replace r marker s ≠ s := fun heq => hm (replace_fixed marker hr0 heq hin)
  have hpart : replace r marker s ≠ marker := by
    intro heq
    rcases replace_eq_replacement marker hr0 marker_ne_nil heq with h | ⟨_, h⟩
    · exact hrs h.symm
    · exact h hin
  refine redact_ne_marker (fun t ht => secret_ne_nil (hrest t ht).1)
    (fun t ht => hclean t (hrest t ht).1 (hrest t ht).2.1 (hrest t ht).2.2)
    (marker_infix_replace hs0 hfirst) (fun heq => ?_) hout
  rcases replace_eq_replacement marker hs0 marker_ne_nil heq with h | ⟨h, _⟩
  · exact hchanged h
  · exact hpart h

end Exactness

/-- Secrets are redacted whole when they are isolated. Conversely they are
isolated when they and all fewer of them are redacted whole, and when they are
redacted whole and none of them has the marker as a proper part. -/
theorem whole_secret_redaction_exact (S : SecretSet) :
    (Isolated S → WholeSecretRedaction S) ∧
    ((∀ S' : SecretSet, S'.values ⊆ S.values → WholeSecretRedaction S') ↔ Isolated S) ∧
    ((∀ t ∈ S.values, marker <:+: t → t = marker) → (WholeSecretRedaction S ↔ Isolated S)) := by
  refine ⟨wholeSecretRedaction_of_isolated, ⟨fun h r hr hm s hs hrs => ?_, fun h S' hsub => ?_⟩,
    fun hclean => ⟨fun h r hr hm s hs hrs => ?_, wholeSecretRedaction_of_isolated⟩⟩
  · let pair : SecretSet := ⟨{r, s}, by
      simp [(secret_ne_nil hr).symm, (secret_ne_nil hs).symm]⟩
    have hpair : WholeSecretRedaction pair :=
      h pair (by simp [pair, Finset.insert_subset_iff, hr, hs])
    refine ⟨not_infix_secret hpair (by simp [pair]) hm (by simp [pair]) hrs ?_,
      not_infix_marker hpair (r := r) (s := s) (by simp [pair]) hm (by simp [pair]) hrs⟩
    intro t ht h1 h2
    simp [pair, h1, h2] at ht
  · exact wholeSecretRedaction_of_isolated fun r hr hm s hs =>
      h r (hsub hr) hm s (hsub hs)
  · exact ⟨not_infix_secret h hr hm hs hrs fun t ht _ _ => hclean t ht,
      not_infix_marker h hr hm hs hrs⟩

/-- A user name, and an address that has the user name in it. -/
def userAndAddress : SecretSet := ⟨{"ab".toList, "db:ab".toList}, by decide⟩

/-- The user name is replaced inside the address, and the rest of it survives. -/
theorem whole_secret_redaction_fails : ¬ WholeSecretRedaction userAndAddress := by
  intro h
  have hiter : IterationOf ["ab".toList, "db:ab".toList] userAndAddress.values := by
    refine ⟨by decide, fun t => ?_⟩
    simp [userAndAddress]
  have hout := redact_of_whole h hiter (s := "db:ab".toList) (by decide)
  exact absurd hout (by decide)

end FaninMcp.Redaction
