import Mathlib.Data.List.Dedup
import Mathlib.Data.Nat.Notation
import Mathlib.Logic.Function.Basic

/-!
# Owned resources and shared boxes

A resource is acquired into a place of its own. From there it may be moved into
a box, which is shared through handles. It is released when its place is cleared
while it is there, or when the last handle to its box is dropped.
-/

set_option autoImplicit false

namespace Foundation.SharedOwnership

/-- Resources are numbered in the order in which they are acquired; what has been
released is listed, the latest first. -/
structure Estate (Place Box Holder : Type) where
  acquired : ℕ := 0
  kept : Place → Option ℕ := fun _ => none
  content : Box → Option ℕ := fun _ => none
  handles : List (Holder × Box) := []
  released : List ℕ := []

variable {Place Box Holder : Type}

def Estate.Shared (E : Estate Place Box Holder) (box : Box) : Prop :=
  ∃ holder, (holder, box) ∈ E.handles

def Estate.share (E : Estate Place Box Holder) (holder : Holder) (box : Box) :
    Estate Place Box Holder :=
  { E with handles := (holder, box) :: E.handles }

section Places
variable [DecidableEq Place]

def Estate.clear (E : Estate Place Box Holder) (place : Place) : Estate Place Box Holder :=
  { E with
    kept := Function.update E.kept place none
    released := (E.kept place).toList ++ E.released }

def Estate.acquire (E : Estate Place Box Holder) (place : Place) : Estate Place Box Holder :=
  { E.clear place with
    acquired := E.acquired + 1
    kept := Function.update E.kept place (some E.acquired) }

/-- A new box is made from what the place holds, if it holds anything. -/
def Estate.box [DecidableEq Box] (E : Estate Place Box Holder) (place : Place) (box : Box)
    (holder : Holder) : Estate Place Box Holder :=
  { E with
    kept := Function.update E.kept place none
    content := Function.update E.content box (E.kept place)
    handles := (holder, box) :: E.handles }

end Places

section Boxes
variable [DecidableEq Box]

def Estate.dropped (E : Estate Place Box Holder) (gone : Holder × Box → Bool) : List Box :=
  ((E.handles.filter gone).map Prod.snd).dedup.filter fun box =>
    (E.handles.filter fun handle => !gone handle).all fun handle => handle.2 ≠ box

def Estate.drop (E : Estate Place Box Holder) (gone : Holder × Box → Bool) :
    Estate Place Box Holder :=
  { E with
    handles := E.handles.filter fun handle => !gone handle
    released := (E.dropped gone).filterMap E.content ++ E.released }

end Boxes

/-- Every resource is in one place or one shared box, or else it has been released
exactly once. -/
structure Sound (E : Estate Place Box Holder) : Prop where
  once : E.released.Nodup
  released : ∀ r ∈ E.released, r < E.acquired
  kept : ∀ place r, E.kept place = some r → r < E.acquired ∧ r ∉ E.released
  alone : ∀ place other r, E.kept place = some r → E.kept other = some r → place = other
  apart : ∀ place box r, E.kept place = some r → E.content box ≠ some r
  content : ∀ box r, E.content box = some r → r < E.acquired
  boxed : ∀ box other r, E.content box = some r → E.content other = some r → box = other
  shared : ∀ box r, E.content box = some r → (r ∈ E.released ↔ ¬ E.Shared box)
  accounted : ∀ r < E.acquired, r ∈ E.released ∨ (∃ place, E.kept place = some r) ∨
    ∃ box, E.content box = some r

theorem sound_empty : Sound ({} : Estate Place Box Holder) := by
  constructor <;> simp

variable {E : Estate Place Box Holder} {place : Place} {box : Box}

section Places
variable [DecidableEq Place]

theorem kept_update {kept : Place → Option ℕ} {other : Place} {r : ℕ}
    (h : Function.update kept place none other = some r) : other ≠ place ∧ kept other = some r := by
  rcases eq_or_ne other place with rfl | hne
  · simp at h
  · rw [Function.update_of_ne hne] at h
    exact ⟨hne, h⟩

theorem sound_clear (h : Sound E) (place : Place) : Sound (E.clear place) := by
  cases hkept : E.kept place with
  | none =>
    have hsame : Function.update E.kept place none = E.kept := by
      rw [← hkept, Function.update_eq_self]
    rw [Estate.clear, hkept, hsame]
    exact h
  | some r =>
    obtain ⟨hr, hnot⟩ := h.kept place r hkept
    have hreleased : (E.clear place).released = r :: E.released := by simp [Estate.clear, hkept]
    refine ⟨?_, ?_, ?_, ?_, ?_, h.content, h.boxed, ?_, ?_⟩
    · rw [hreleased]
      exact List.nodup_cons.mpr ⟨hnot, h.once⟩
    · rw [hreleased]
      exact List.forall_mem_cons.mpr ⟨hr, h.released⟩
    · intro other q hq
      obtain ⟨hne, hq⟩ := kept_update hq
      rw [hreleased, List.mem_cons, not_or]
      refine ⟨(h.kept other q hq).1, ?_, (h.kept other q hq).2⟩
      rintro rfl
      exact hne (h.alone other place q hq hkept)
    · intro one two q hone htwo
      exact h.alone one two q (kept_update hone).2 (kept_update htwo).2
    · exact fun other box q hq => h.apart other box q (kept_update hq).2
    · intro box q hq
      have hne : q ≠ r := by
        rintro rfl
        exact h.apart place box q hkept hq
      rw [hreleased, List.mem_cons, or_iff_right hne]
      exact h.shared box q hq
    · intro q hq
      rw [hreleased, List.mem_cons]
      rcases h.accounted q hq with hold | ⟨other, hother⟩ | hbox
      · exact Or.inl (Or.inr hold)
      · rcases eq_or_ne other place with rfl | hne
        · exact Or.inl (Or.inl (Option.some.inj (hother.symm.trans hkept)))
        · exact Or.inr (Or.inl ⟨other, (Function.update_of_ne hne _ _).trans hother⟩)
      · exact Or.inr (Or.inr hbox)

theorem sound_acquire (h : Sound E) (place : Place) : Sound (E.acquire place) := by
  have hc := sound_clear h place
  have hnew : ∀ {other r}, (E.acquire place).kept other = some r →
      (other = place ∧ r = E.acquired) ∨ (E.clear place).kept other = some r := by
    intro other r hr
    rcases eq_or_ne other place with rfl | hne
    · exact Or.inl ⟨rfl, (by simpa [Estate.acquire] using hr : E.acquired = r).symm⟩
    · exact Or.inr (by simpa [Estate.acquire, Estate.clear, hne] using hr)
  have hfresh : E.acquired ∉ (E.clear place).released := fun hr => Nat.lt_irrefl _ (hc.released _ hr)
  refine ⟨hc.once, fun r hr => Nat.lt_succ_of_lt (hc.released r hr), ?_, ?_, ?_,
    fun box r hr => Nat.lt_succ_of_lt (hc.content box r hr), hc.boxed, hc.shared, ?_⟩
  · intro other r hr
    rcases hnew hr with ⟨rfl, rfl⟩ | hold
    · exact ⟨Nat.lt_succ_self _, hfresh⟩
    · exact ⟨Nat.lt_succ_of_lt (hc.kept other r hold).1, (hc.kept other r hold).2⟩
  · intro one two r hone htwo
    rcases hnew hone with ⟨rfl, rfl⟩ | hone
    · rcases hnew htwo with ⟨rfl, _⟩ | htwo
      · rfl
      · exact absurd (hc.kept two _ htwo).1 (Nat.lt_irrefl _)
    · rcases hnew htwo with ⟨rfl, rfl⟩ | htwo
      · exact absurd (hc.kept one _ hone).1 (Nat.lt_irrefl _)
      · exact hc.alone one two r hone htwo
  · intro other box r hr hbox
    rcases hnew hr with ⟨rfl, rfl⟩ | hold
    · exact Nat.lt_irrefl _ (hc.content box _ hbox)
    · exact hc.apart other box r hold hbox
  · intro r hr
    rcases Nat.lt_succ_iff_lt_or_eq.mp hr with hlt | rfl
    · rcases hc.accounted r hlt with hold | ⟨other, hother⟩ | hbox
      · exact Or.inl hold
      · obtain ⟨hne, hkept⟩ := kept_update hother
        exact Or.inr (Or.inl ⟨other, (Function.update_of_ne hne _ _).trans hkept⟩)
      · exact Or.inr (Or.inr hbox)
    · exact Or.inr (Or.inl ⟨place, by simp [Estate.acquire]⟩)

theorem sound_box [DecidableEq Box] (h : Sound E) (place : Place) (holder : Holder) (hnew : ¬ E.Shared box)
    (hempty : E.content box = none) : Sound (E.box place box holder) := by
  have hcontent : ∀ {other r}, (E.box place box holder).content other = some r →
      (other = box ∧ E.kept place = some r) ∨ other ≠ box ∧ E.content other = some r := by
    intro other r hr
    rcases eq_or_ne other box with rfl | hne
    · exact Or.inl ⟨rfl, by simpa [Estate.box] using hr⟩
    · exact Or.inr ⟨hne, by simpa [Estate.box, hne] using hr⟩
  have hshared : ∀ {other}, other ≠ box →
      ((E.box place box holder).Shared other ↔ E.Shared other) := by
    intro other hne
    simp [Estate.Shared, Estate.box, hne]
  refine ⟨h.once, h.released, fun other r hr => h.kept other r (kept_update hr).2,
    fun one two r hone htwo => h.alone one two r (kept_update hone).2 (kept_update htwo).2,
    ?_, ?_, ?_, ?_, ?_⟩
  · intro other inner r hr hin
    obtain ⟨hne, hkept⟩ := kept_update hr
    rcases hcontent hin with ⟨rfl, hplace⟩ | ⟨_, hold⟩
    · exact hne (h.alone other place r hkept hplace)
    · exact h.apart other inner r hkept hold
  · intro inner r hin
    rcases hcontent hin with ⟨rfl, hplace⟩ | ⟨_, hold⟩
    · exact (h.kept place r hplace).1
    · exact h.content inner r hold
  · intro one two r hone htwo
    rcases hcontent hone with ⟨rfl, hplace⟩ | ⟨_, hold⟩
    · rcases hcontent htwo with ⟨rfl, _⟩ | ⟨_, hold⟩
      · rfl
      · exact absurd hold (h.apart place two r hplace)
    · rcases hcontent htwo with ⟨rfl, hplace⟩ | ⟨_, hold'⟩
      · exact absurd hold (h.apart place one r hplace)
      · exact h.boxed one two r hold hold'
  · intro inner r hin
    rcases hcontent hin with ⟨rfl, hplace⟩ | ⟨hne, hold⟩
    · exact iff_of_false (h.kept place r hplace).2 fun hn => hn ⟨holder, List.mem_cons_self⟩
    · rw [hshared hne]
      exact h.shared inner r hold
  · intro r hr
    rcases h.accounted r hr with hold | ⟨other, hother⟩ | ⟨inner, hin⟩
    · exact Or.inl hold
    · rcases eq_or_ne other place with rfl | hne
      · exact Or.inr (Or.inr ⟨box, by simpa [Estate.box] using hother⟩)
      · exact Or.inr (Or.inl ⟨other, (Function.update_of_ne hne _ _).trans hother⟩)
    · have hne : inner ≠ box := by
        rintro rfl
        rw [hempty] at hin
        cases hin
      exact Or.inr (Or.inr ⟨inner, (Function.update_of_ne hne _ _).trans hin⟩)

end Places

section Boxes

theorem sound_share (h : Sound E) (holder : Holder) (hold : E.Shared box) :
    Sound (E.share holder box) := by
  have hshared : ∀ other, (E.share holder box).Shared other ↔ E.Shared other := by
    intro other
    constructor
    · rintro ⟨someone, hmem⟩
      rcases List.mem_cons.mp hmem with heq | hmem
      · cases heq
        exact hold
      · exact ⟨someone, hmem⟩
    · rintro ⟨someone, hmem⟩
      exact ⟨someone, List.mem_cons_of_mem _ hmem⟩
  refine ⟨h.once, h.released, h.kept, h.alone, h.apart, h.content, h.boxed, fun inner r hr => ?_,
    h.accounted⟩
  rw [hshared]
  exact h.shared inner r hr

variable [DecidableEq Box]

theorem shared_drop (gone : Holder × Box → Bool) :
    (E.drop gone).Shared box ↔ ∃ holder, (holder, box) ∈ E.handles ∧ gone (holder, box) = false := by
  simp [Estate.Shared, Estate.drop]

theorem mem_dropped (gone : Holder × Box → Bool) :
    box ∈ E.dropped gone ↔ E.Shared box ∧ ¬ (E.drop gone).Shared box := by
  rw [shared_drop]
  simp only [Estate.dropped, List.mem_filter, List.mem_dedup, List.mem_map, List.all_eq_true,
    Estate.Shared, Bool.not_eq_true', decide_eq_true_eq, ne_eq]
  constructor
  · rintro ⟨⟨⟨holder, _⟩, ⟨hmem, _⟩, rfl⟩, hlast⟩
    refine ⟨⟨holder, hmem⟩, ?_⟩
    rintro ⟨other, hother, hstays⟩
    exact hlast _ ⟨hother, hstays⟩ rfl
  · rintro ⟨⟨holder, hmem⟩, hlast⟩
    refine ⟨⟨(holder, box), ⟨hmem, ?_⟩, rfl⟩, ?_⟩
    · by_contra hstays
      exact hlast ⟨holder, hmem, by simpa using hstays⟩
    · rintro ⟨other, _⟩ ⟨hother, hstays⟩ rfl
      exact hlast ⟨other, hother, hstays⟩

theorem sound_drop (h : Sound E) (gone : Holder × Box → Bool) : Sound (E.drop gone) := by
  have hreleased : ∀ r, r ∈ (E.drop gone).released ↔
      (∃ box ∈ E.dropped gone, E.content box = some r) ∨ r ∈ E.released := by
    simp [Estate.drop]
  have hlive : ∀ box r, box ∈ E.dropped gone → E.content box = some r → r ∉ E.released :=
    fun box r hd hr hrel => (h.shared box r hr).mp hrel ((mem_dropped gone).mp hd).1
  refine ⟨?_, ?_, ?_, h.alone, h.apart, h.content, h.boxed, ?_, ?_⟩
  · refine List.nodup_append.mpr ⟨?_, h.once, ?_⟩
    · refine List.Nodup.filterMap (fun one two r hone htwo => ?_) ((List.nodup_dedup _).filter _)
      exact h.boxed one two r hone htwo
    · rintro r hr _ hold rfl
      obtain ⟨box, hd, hbox⟩ := List.mem_filterMap.mp hr
      exact hlive box r hd hbox hold
  · intro r hr
    rcases (hreleased r).mp hr with ⟨box, _, hbox⟩ | hold
    · exact h.content box r hbox
    · exact h.released r hold
  · intro place r hr
    refine ⟨(h.kept place r hr).1, fun hrel => ?_⟩
    rcases (hreleased r).mp hrel with ⟨box, _, hbox⟩ | hold
    · exact h.apart place box r hr hbox
    · exact (h.kept place r hr).2 hold
  · intro box r hr
    have hmem : r ∈ (E.drop gone).released ↔ box ∈ E.dropped gone ∨ r ∈ E.released := by
      rw [hreleased]
      constructor
      · rintro (⟨other, hd, hother⟩ | hold)
        · exact Or.inl (h.boxed other box r hother hr ▸ hd)
        · exact Or.inr hold
      · rintro (hd | hold)
        · exact Or.inl ⟨box, hd, hr⟩
        · exact Or.inr hold
    have hless : (E.drop gone).Shared box → E.Shared box := by
      rw [shared_drop]
      rintro ⟨holder, hin, _⟩
      exact ⟨holder, hin⟩
    rw [hmem, mem_dropped, h.shared box r hr]
    tauto
  · intro r hr
    rcases h.accounted r hr with hold | hplace | hbox
    · exact Or.inl ((hreleased r).mpr (Or.inr hold))
    · exact Or.inr (Or.inl hplace)
    · exact Or.inr (Or.inr hbox)

end Boxes

end Foundation.SharedOwnership
