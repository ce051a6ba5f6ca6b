import Mathlib.Logic.Relation
import Mathlib.Data.Set.Basic

/-!
# Walks in a graph with ordered successor lists

A depth-first search that skips finished vertices meets a vertex of an acyclic
graph for the first time along its leftmost path: at every vertex the earliest
successor from which the target can still be reached. The depth such a search
attains is therefore a property of the ordered graph.
-/

set_option autoImplicit false

namespace Foundation.OrderedWalks

variable {V : Type*} (succ : V → List V)

def Link (a b : V) : Prop := b ∈ succ a

def Reaches : V → V → Prop := Relation.ReflTransGen (Link succ)

/-- A walk of exactly `k` links. -/
inductive Walk : ℕ → V → V → Prop
  | nil (v : V) : Walk 0 v v
  | cons {k : ℕ} {v w u : V} : Link succ v w → Walk k w u → Walk (k+1) v u

def AcyclicFrom (v : V) : Prop := ∀ u, Reaches succ v u → ¬ Relation.TransGen (Link succ) u u

def ReachSet (ws : List V) : Set V := {u | ∃ w ∈ ws, Reaches succ w u}

/-- The path of `k` links that takes at every vertex the earliest successor
from which `u` can be reached. -/
inductive Leftmost : ℕ → V → V → Prop
  | here (v : V) : Leftmost 0 v v
  | step {k : ℕ} {v w u : V} {before after : List V} : succ v = before ++ w::after →
      (∀ x ∈ before, ¬ Reaches succ x u) → Leftmost k w u → Leftmost (k+1) v u

/-- The path meets its target for the first time, `links` have run out there,
and the target has a successor. `D` holds the vertices finished before. -/
def Overdeep (links : ℕ) (D : Set V) (v : V) : Prop :=
  links = 0 ∨ ∃ u ∉ D, ∃ k, links = k+1 ∧ Leftmost succ k v u ∧ succ u ≠ []

def OverdeepAmong (links : ℕ) (D : Set V) (ws : List V) : Prop :=
  ∃ before w after, ws = before ++ w::after ∧ Overdeep succ links (D ∪ ReachSet succ before) w

def Closed (D : Set V) : Prop := ∀ v ∈ D, ∀ u, Reaches succ v u → u ∈ D

variable {succ}

theorem leftmost_walk {k : ℕ} {v u : V} (h : Leftmost succ k v u) : Walk succ k v u := by
  induction h with
  | here v => exact Walk.nil v
  | step hs _ _ ih => exact Walk.cons (by simp [Link, hs]) ih

theorem walk_reaches {k : ℕ} {v u : V} (h : Walk succ k v u) : Reaches succ v u := by
  induction h with
  | nil v => exact Relation.ReflTransGen.refl
  | cons hl _ ih => exact Relation.ReflTransGen.head hl ih

theorem walk_snoc {k : ℕ} {v u w : V} (h : Walk succ k v u) (hl : Link succ u w) :
    Walk succ (k+1) v w := by
  induction h with
  | nil v => exact Walk.cons hl (Walk.nil w)
  | cons hs _ ih => exact Walk.cons hs (ih hl)

theorem acyclic_child {v w : V} (h : AcyclicFrom succ v) (hl : Link succ v w) :
    AcyclicFrom succ w :=
  fun u hu => h u (Relation.ReflTransGen.head hl hu)

theorem acyclic_no_return {v w : V} (h : AcyclicFrom succ v) (hl : Link succ v w) :
    ¬ Reaches succ w v :=
  fun hw => h v Relation.ReflTransGen.refl (Relation.TransGen.head' hl hw)

theorem acyclic_of_rank (rank : V → ℕ) (h : ∀ a b, Link succ a b → rank b < rank a) (v : V) :
    AcyclicFrom succ v := by
  intro u _ hcycle
  have hfall : ∀ a b, Relation.TransGen (Link succ) a b → rank b < rank a := by
    intro a b hab
    induction hab with
    | single hl => exact h _ _ hl
    | tail _ hl ih => exact (h _ _ hl).trans ih
  exact absurd (hfall u u hcycle) (lt_irrefl _)

@[simp] theorem reachSet_nil : ReachSet succ ([] : List V) = ∅ := by
  ext u
  simp [ReachSet]

theorem reachSet_cons (w : V) (ws : List V) :
    ReachSet succ (w::ws) = {u | Reaches succ w u} ∪ ReachSet succ ws := by
  ext u
  simp [ReachSet]

theorem reach_succ (succ : V → List V) (v : V) :
    {u | Reaches succ v u} = ReachSet succ (succ v) ∪ {v} := by
  ext u
  constructor
  · intro hu
    rcases hu.cases_head with rfl | ⟨w, hl, hwu⟩
    · exact Or.inr rfl
    · exact Or.inl ⟨w, hl, hwu⟩
  · rintro (⟨w, hl, hwu⟩ | rfl)
    · exact Relation.ReflTransGen.head hl hwu
    · exact Relation.ReflTransGen.refl

theorem closed_union_reach {D : Set V} (h : Closed succ D) (w : V) :
    Closed succ (D ∪ {u | Reaches succ w u}) := by
  rintro v (hv | hv) u hu
  · exact Or.inl (h v hv u hu)
  · exact Or.inr (hv.trans hu)

theorem overdeepAmong_nil (links : ℕ) (D : Set V) : ¬ OverdeepAmong succ links D [] := by
  rintro ⟨before, w, after, h, _⟩
  simp at h

theorem overdeepAmong_cons (links : ℕ) (D : Set V) (w : V) (ws : List V) :
    OverdeepAmong succ links D (w::ws) ↔
      Overdeep succ links D w ∨ OverdeepAmong succ links (D ∪ {u | Reaches succ w u}) ws := by
  constructor
  · rintro ⟨before, x, after, h, hx⟩
    cases before with
    | nil =>
      obtain ⟨rfl, rfl⟩ := List.cons.inj h
      left
      simpa using hx
    | cons y before =>
      obtain ⟨rfl, rfl⟩ := List.cons.inj h
      right
      exact ⟨before, x, after, rfl, by rwa [reachSet_cons, ← Set.union_assoc] at hx⟩
  · rintro (h | ⟨before, x, after, rfl, hx⟩)
    · exact ⟨[], w, ws, rfl, by simpa using h⟩
    · exact ⟨w::before, x, after, rfl, by rwa [reachSet_cons, ← Set.union_assoc]⟩

/-- Running out of links below an unfinished vertex is running out of one link
less below one of its successors, once the earlier ones are finished. -/
theorem overdeep_succ (links : ℕ) {D : Set V} {v : V} (hv : v ∉ D) :
    Overdeep succ (links+1) D v ↔ OverdeepAmong succ links D (succ v) := by
  constructor
  · rintro (h | ⟨u, hu, k, hk, hpath, hne⟩)
    · cases h
    · obtain rfl : links = k := by omega
      cases hpath with
      | here =>
        cases hs : succ v with
        | nil => exact absurd hs hne
        | cons w ws => exact ⟨[], w, ws, rfl, Or.inl rfl⟩
      | @step k _ w _ before after hs hleft hrest =>
        refine ⟨before, w, after, hs, Or.inr ⟨u, ?_, k, rfl, hrest, hne⟩⟩
        rintro (h | ⟨x, hx, hxu⟩)
        · exact hu h
        · exact hleft x hx hxu
  · rintro ⟨before, w, after, hs, h⟩
    right
    rcases h with rfl | ⟨u, hu, k, rfl, hpath, hne⟩
    · exact ⟨v, hv, 0, rfl, Leftmost.here v, by simp [hs]⟩
    · refine ⟨u, fun hD => hu (Or.inl hD), k+1, rfl, ?_, hne⟩
      exact Leftmost.step hs (fun x hx hxu => hu (Or.inr ⟨x, hx, hxu⟩)) hpath

theorem not_overdeep_of_finished (links : ℕ) {D : Set V} {v : V} (hD : Closed succ D) (hv : v ∈ D) :
    ¬ Overdeep succ (links+1) D v := by
  rintro (h | ⟨u, hu, k, _, hpath, _⟩)
  · cases h
  · exact hu (hD v hv u (walk_reaches (leftmost_walk hpath)))

theorem link_perm {succ' : V → List V} (h : ∀ v, (succ v).Perm (succ' v)) :
    Link succ = Link succ' := by
  funext a b
  exact propext (h a).mem_iff

theorem walk_perm {succ' : V → List V} (h : ∀ v, (succ v).Perm (succ' v)) {k : ℕ} {v u : V} :
    Walk succ k v u ↔ Walk succ' k v u := by
  have hone : ∀ {s s' : V → List V}, Link s = Link s' → Walk s k v u → Walk s' k v u := by
    intro s s' hl hw
    induction hw with
    | nil v => exact Walk.nil v
    | cons hstep _ ih => exact Walk.cons (hl ▸ hstep) ih
  exact ⟨hone (link_perm h), hone (link_perm h).symm⟩

end Foundation.OrderedWalks
