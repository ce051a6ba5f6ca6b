import Mathlib.Data.Nat.Notation
import Mathlib.Logic.Relation

/-!
# Waiting for locks

Tasks hold locks and wait for locks, of objects that several modes of locking
may share. A task waits for who holds a conflicting lock, and for who stands
before it in the queue of the object. Where the objects have levels, and no
task waits for a lock unless it holds only locks of higher levels, no cycle of
waiting tasks can form.
-/

set_option autoImplicit false

namespace Foundation.WaitGraph

/-- Who holds what and who waits for what at some moment. `ahead` is the order
of the queues. -/
structure Allocation (Task Lock Object : Type) where
  object : Lock → Object
  conflicts : Lock → Lock → Prop
  wants : Task → Option Lock
  holds : Task → Lock → Prop
  ahead : Task → Task → Prop

section Graph
variable {Task Lock Object : Type} (A : Allocation Task Lock Object)

inductive WaitsFor : Task → Task → Prop
  | held {i j : Task} {l m : Lock} : A.wants i = some l → A.holds j m → A.conflicts l m → WaitsFor i j
  | queued {i j : Task} {l m : Lock} : A.wants i = some l → A.wants j = some m →
      A.object l = A.object m → A.ahead j i → WaitsFor i j

abbrev Awaits : Task → Task → Prop := Relation.TransGen (WaitsFor A)

structure Queued (ahead : Task → Task → Prop) : Prop where
  irrefl : ∀ i, ¬ ahead i i
  trans : ∀ i j k, ahead i j → ahead j k → ahead i k

structure Leveled (level : Object → ℕ) : Prop where
  same : ∀ l m, A.conflicts l m → A.object l = A.object m
  below : ∀ i l m, A.wants i = some l → A.holds i m → level (A.object l) < level (A.object m)

variable {A} {level : Object → ℕ}

/-- How far from running: above the level of the lock that is waited for. -/
def rank (A : Allocation Task Lock Object) (level : Object → ℕ) (i : Task) : ℕ :=
  (A.wants i).elim 0 fun l => level (A.object l) + 1

theorem rank_wants {i : Task} {l : Lock} (h : A.wants i = some l) :
    rank A level i = level (A.object l) + 1 := by
  rw [rank, h]
  rfl

theorem rank_waits (h : Leveled A level) {i j : Task} (hw : WaitsFor A i j) :
    rank A level j < rank A level i ∨ rank A level j = rank A level i ∧ A.ahead j i := by
  cases hw with
  | @held l m hi hj hc =>
    left
    rw [rank_wants hi, h.same l m hc]
    cases hwants : A.wants j with
    | none => exact Nat.lt_succ_of_le (by rw [rank, hwants]; exact Nat.zero_le _)
    | some n =>
      rw [rank_wants hwants]
      exact Nat.succ_lt_succ (h.below j n m hwants hj)
  | queued hi hj hsame hahead =>
    right
    rw [rank_wants hi, rank_wants hj, hsame]
    exact ⟨rfl, hahead⟩

theorem rank_awaits (h : Leveled A level) (hq : Queued A.ahead) {i j : Task} (hw : Awaits A i j) :
    rank A level j < rank A level i ∨ rank A level j = rank A level i ∧ A.ahead j i := by
  induction hw with
  | single hlast => exact rank_waits h hlast
  | @tail j k _ hlast ih =>
    rcases ih with hlt | ⟨heq, hahead⟩
    · rcases rank_waits h hlast with hlt' | ⟨heq', _⟩
      · exact Or.inl (Nat.lt_trans hlt' hlt)
      · exact Or.inl (heq' ▸ hlt)
    · rcases rank_waits h hlast with hlt' | ⟨heq', hahead'⟩
      · exact Or.inl (heq ▸ hlt')
      · exact Or.inr ⟨heq'.trans heq, hq.trans k j i hahead' hahead⟩

theorem waits_acyclic (h : Leveled A level) (hq : Queued A.ahead) (i : Task) : ¬ Awaits A i i := by
  intro hw
  rcases rank_awaits h hq hw with hlt | ⟨_, hahead⟩
  · exact Nat.lt_irrefl _ hlt
  · exact hq.irrefl i hahead

/-- For a task that is not waiting, and holds only locks whose waiters hold
nothing, only those wait that want one of its locks themselves. -/
theorem awaits_top (h : Leveled A level) {i : Task} (hi : A.wants i = none)
    (htop : ∀ l m n k, A.holds i m → A.wants k = some l → A.object l = A.object m → ¬ A.holds k n)
    {j : Task} (hw : Awaits A j i) :
    ∃ l m, A.wants j = some l ∧ A.holds i m ∧ A.object l = A.object m := by
  induction hw using Relation.TransGen.head_induction_on with
  | single hlast =>
    cases hlast with
    | @held l m hwants hheld hc => exact ⟨l, m, hwants, hheld, h.same l m hc⟩
    | queued _ hwants _ _ => exact absurd (hi.symm.trans hwants) (by simp)
  | head hfirst _ ih =>
    obtain ⟨l, m, hwants, hheld, hsame⟩ := ih
    cases hfirst with
    | held _ hother _ => exact absurd hother (htop l m _ _ hheld hwants hsame)
    | @queued l' m' hwants' hnext hqueue _ =>
      rw [hnext, Option.some.injEq] at hwants
      subst hwants
      exact ⟨l', m, hwants', hheld, hqueue.trans hsame⟩

end Graph

end Foundation.WaitGraph
