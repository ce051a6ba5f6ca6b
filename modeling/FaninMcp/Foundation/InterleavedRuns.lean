import Mathlib.Data.List.Basic
import FaninMcp.Foundation.SequentialRuns

/-!
# Two programs on one state

The programs take turns, an operation of either at a time and in any order.
Where a program does what a simpler one does, and more that is not seen, the
interleavings of two such programs are, as far as is seen, interleavings of the
simpler ones. The simplest program with a hazard is the one that reads a cell,
changes what it read and writes it back.
-/

set_option autoImplicit false

namespace Foundation.AsyncPrograms

inductive Side where
  | left
  | right

def Side.other : Side → Side
  | .left => .right
  | .right => .left

theorem Side.other_other (side : Side) : side.other.other = side := by
  cases side <;> rfl

theorem side_cases (side side' : Side) : side' = side ∨ side' = side.other := by
  cases side <;> cases side' <;> simp [Side.other]

inductive Interleaved {S : Signature} {State α β : Type} (R : Semantics S State) :
    Prog S α → Prog S β → State → List (Side × Exchange S) → α → β → State → Prop
  | done (a : α) (b : β) (s : State) : Interleaved R (.done a) (.done b) s [] a b s
  | left {op : S.Op} {next : S.Ans op → Prog S α} {q : Prog S β} (ans : S.Ans op)
      {s s' s'' : State} {a : α} {b : β} {t : List (Side × Exchange S)} :
      R s op ans s' → Interleaved R (next ans) q s' t a b s'' →
      Interleaved R (.act op next) q s ((.left, ⟨op, ans⟩)::t) a b s''
  | right {op : S.Op} {next : S.Ans op → Prog S β} {p : Prog S α} (ans : S.Ans op)
      {s s' s'' : State} {a : α} {b : β} {t : List (Side × Exchange S)} :
      R s op ans s' → Interleaved R p (next ans) s' t a b s'' →
      Interleaved R p (.act op next) s ((.right, ⟨op, ans⟩)::t) a b s''

def Before {α : Type} (P Q : α → Prop) : List α → Prop
  | [] => False
  | x::rest => P x ∧ (∃ y ∈ rest, Q y) ∨ Before P Q rest

section Order
variable {α β : Type} {P Q : α → Prop}

theorem before_filterMap {P Q : β → Prop} (f : α → Option β) (l : List α) :
    Before P Q (l.filterMap f) ↔
      Before (fun x => ∃ y, f x = some y ∧ P y) (fun x => ∃ y, f x = some y ∧ Q y) l := by
  induction l with
  | nil => rfl
  | cons x rest ih =>
    have hlater : (∃ y ∈ rest.filterMap f, Q y) ↔ ∃ z ∈ rest, ∃ y, f z = some y ∧ Q y := by
      simp only [List.mem_filterMap]
      constructor
      · rintro ⟨y, ⟨z, hz, hy⟩, hQ⟩
        exact ⟨z, hz, y, hy, hQ⟩
      · rintro ⟨z, hz, y, hy, hQ⟩
        exact ⟨y, ⟨z, hz, hy⟩, hQ⟩
    cases hx : f x with
    | none =>
      rw [List.filterMap_cons_none hx, ih]
      simp [Before, hx]
    | some y =>
      rw [List.filterMap_cons_some hx, Before, Before, hlater, ih]
      simp [hx]

theorem before_congr {P' Q' : α → Prop} (hP : ∀ x, P x ↔ P' x) (hQ : ∀ x, Q x ↔ Q' x)
    (l : List α) : Before P Q l ↔ Before P' Q' l := by
  rw [show P = P' from funext fun x => propext (hP x), show Q = Q' from funext fun x =>
    propext (hQ x)]

end Order

section Schedules
variable {S : Signature} {State α β γ : Type} {R : Semantics S State} {s mid s' : State}
  {p : Prog S α} {q : Prog S β} {a : α} {b : β} {c : γ} {t : List (Exchange S)}
  {u : List (Side × Exchange S)}

/-- One of the programs does a part of what it has to do before the other goes on. -/
theorem interleaved_left_bind {p : Prog S γ} {f : γ → Prog S α} (hp : Runs R p s t c mid)
    (h : Interleaved R (f c) q mid u a b s') :
    Interleaved R (p >>= f) q s (t.map (Side.left, ·) ++ u) a b s' := by
  induction hp with
  | done c s => exact h
  | act hr _ ih => exact .left _ hr (ih h)

theorem interleaved_right_bind {q : Prog S γ} {f : γ → Prog S β} (hq : Runs R q s t c mid)
    (h : Interleaved R p (f c) mid u a b s') :
    Interleaved R p (q >>= f) s (t.map (Side.right, ·) ++ u) a b s' := by
  induction hq with
  | done c s => exact h
  | act hr _ ih => exact .right _ hr (ih h)

theorem interleaved_left_runs (hp : Runs R p s t a mid)
    (h : Interleaved R (.done a) q mid u a b s') :
    Interleaved R p q s (t.map (Side.left, ·) ++ u) a b s' := by
  rw [← prog_bind_pure p]
  exact interleaved_left_bind hp h

theorem interleaved_right_runs (hq : Runs R q s t b mid)
    (h : Interleaved R p (.done b) mid u a b s') :
    Interleaved R p q s (t.map (Side.right, ·) ++ u) a b s' := by
  rw [← prog_bind_pure q]
  exact interleaved_right_bind hq h

theorem interleaved_runs {t' : List (Exchange S)} (hp : Runs R p s t a mid)
    (hq : Runs R q mid t' b s') :
    Interleaved R p q s (t.map (Side.left, ·) ++ t'.map (Side.right, ·)) a b s' := by
  have hlast := interleaved_right_runs hq (.done a b s')
  rw [List.append_nil] at hlast
  exact interleaved_left_runs hp hlast

end Schedules

section Simulation
variable {S S' : Signature} {State State' : Type}

/-- A program does what another does, on a state that stands for its own: each
of its operations is one of the other's, or is not seen. -/
inductive Implements {α : Type} (R : Semantics S State) (R' : Semantics S' State')
    (Stands : State → State' → Prop) (seen : Exchange S → Option (Exchange S')) :
    Prog S α → Prog S' α → Prop
  | done (a : α) : Implements R R' Stands seen (.done a) (.done a)
  | silent {op : S.Op} {next : S.Ans op → Prog S α} {q : Prog S' α} :
      (∀ s c ans s', Stands s c → R s op ans s' → seen ⟨op, ans⟩ = none ∧ Stands s' c) →
      (∀ s c ans s', Stands s c → R s op ans s' → Implements R R' Stands seen (next ans) q) →
      Implements R R' Stands seen (.act op next) q
  | act {op : S.Op} {next : S.Ans op → Prog S α} {op' : S'.Op} {next' : S'.Ans op' → Prog S' α}
      (f : S.Ans op → S'.Ans op') :
      (∀ s c ans s', Stands s c → R s op ans s' → seen ⟨op, ans⟩ = some ⟨op', f ans⟩ ∧
        ∃ c', R' c op' (f ans) c' ∧ Stands s' c') →
      (∀ s c ans s', Stands s c → R s op ans s' →
        Implements R R' Stands seen (next ans) (next' (f ans))) →
      Implements R R' Stands seen (.act op next) (.act op' next')

variable {R : Semantics S State} {R' : Semantics S' State'} {Stands : State → State' → Prop}
  {seen : Exchange S → Option (Exchange S')} {α β : Type}

theorem implements_bind {p : Prog S β} {p' : Prog S' β} {f : β → Prog S α} {f' : β → Prog S' α}
    (hp : Implements R R' Stands seen p p')
    (hf : ∀ b, Implements R R' Stands seen (f b) (f' b)) :
    Implements R R' Stands seen (p >>= f) (p' >>= f') := by
  induction hp with
  | done b => exact hf b
  | silent hstep _ ih => exact .silent hstep ih
  | act g hstep _ ih => exact .act g hstep ih

def sideSeen (seen : Exchange S → Option (Exchange S')) (e : Side × Exchange S) :
    Option (Side × Exchange S') := (seen e.2).map (e.1, ·)

theorem interleaved_implements {p : Prog S α} {q : Prog S β} {p' : Prog S' α} {q' : Prog S' β}
    {s s' : State} {c : State'} {t : List (Side × Exchange S)} {a : α} {b : β}
    (h : Interleaved R p q s t a b s') (hp : Implements R R' Stands seen p p')
    (hq : Implements R R' Stands seen q q') (hs : Stands s c) :
    ∃ c', Interleaved R' p' q' c (t.filterMap (sideSeen seen)) a b c' ∧ Stands s' c' := by
  induction h generalizing p' q' c with
  | done a b s =>
    cases hp
    cases hq
    exact ⟨c, .done a b c, hs⟩
  | left ans hr _ ih =>
    cases hp with
    | silent hstep hnext =>
      obtain ⟨hnone, hmid⟩ := hstep _ _ _ _ hs hr
      rw [List.filterMap_cons_none (by simp [sideSeen, hnone])]
      exact ih (hnext _ _ _ _ hs hr) hq hmid
    | act f hstep hnext =>
      obtain ⟨hsome, c', hr', hmid⟩ := hstep _ _ _ _ hs hr
      obtain ⟨c'', hrest, hend⟩ := ih (hnext _ _ _ _ hs hr) hq hmid
      rw [List.filterMap_cons_some (by rw [sideSeen, hsome]; rfl)]
      exact ⟨c'', .left _ hr' hrest, hend⟩
  | right ans hr _ ih =>
    cases hq with
    | silent hstep hnext =>
      obtain ⟨hnone, hmid⟩ := hstep _ _ _ _ hs hr
      rw [List.filterMap_cons_none (by simp [sideSeen, hnone])]
      exact ih hp (hnext _ _ _ _ hs hr) hmid
    | act f hstep hnext =>
      obtain ⟨hsome, c', hr', hmid⟩ := hstep _ _ _ _ hs hr
      obtain ⟨c'', hrest, hend⟩ := ih hp (hnext _ _ _ _ hs hr) hmid
      rw [List.filterMap_cons_some (by rw [sideSeen, hsome]; rfl)]
      exact ⟨c'', .right _ hr' hrest, hend⟩

end Simulation

section Cell
variable {σ α : Type}

inductive CellOp (σ : Type) where
  | read
  | write (value : σ)

abbrev CellAns {σ : Type} : CellOp σ → Type
  | .read => σ
  | .write _ => Unit

abbrev cellOps (σ : Type) : Signature := ⟨CellOp σ, CellAns, fun _ => false⟩

def Cell : Semantics (cellOps σ) σ
  | s, .read, ans, s' => ans = s ∧ s = s'
  | _, .write value, _, s' => s' = value

def readCell : Prog (cellOps σ) σ := perform (S := cellOps σ) .read

def writeCell (value : σ) : Prog (cellOps σ) Unit := perform (S := cellOps σ) (.write value)

def updateCell (f : σ → σ) (a : α) : Prog (cellOps σ) α := do
  let s ← readCell
  writeCell (f s)
  return a

def Reads (side : Side) (e : Side × Exchange (cellOps σ)) : Prop := e.1 = side ∧ e.2.1 = .read

def Writes (side : Side) (e : Side × Exchange (cellOps σ)) : Prop :=
  e.1 = side ∧ ∃ value, e.2.1 = .write value

section Inversion
variable {β : Type} {a a' : α} {b b' : β} {s s' : σ} {t : List (Side × Exchange (cellOps σ))}

def readBy (side : Side) (value : σ) : Side × Exchange (cellOps σ) := (side, ⟨.read, value⟩)

def writtenBy (side : Side) (value : σ) : Side × Exchange (cellOps σ) :=
  (side, ⟨.write value, ()⟩)

@[simp] theorem reads_readBy {side side' : Side} {value : σ} :
    Reads side (readBy side' value) ↔ side' = side := by
  simp [Reads, readBy]

@[simp] theorem reads_writtenBy {side side' : Side} {value : σ} :
    ¬ Reads side (writtenBy side' value) := by
  simp [Reads, writtenBy]

@[simp] theorem writes_readBy {side side' : Side} {value : σ} :
    ¬ Writes side (readBy side' value) := by
  simp [Writes, readBy]

@[simp] theorem writes_writtenBy {side side' : Side} {value : σ} :
    Writes side (writtenBy side' value) ↔ side' = side := by
  simp [Writes, writtenBy]

theorem both_write (value : Side → σ)
    (h : Interleaved Cell (.act (.write (value .left)) fun _ => .done a)
      (.act (.write (value .right)) fun _ => .done b) s t a' b' s') :
    ∃ first : Side, a' = a ∧ b' = b ∧ s' = value first.other ∧
      t = [writtenBy first (value first), writtenBy first.other (value first.other)] := by
  cases h with
  | left _ hfirst h =>
    cases h with
    | right _ hsecond h =>
      cases h
      exact ⟨.left, rfl, rfl, hsecond, rfl⟩
  | right _ hfirst h =>
    cases h with
    | left _ hsecond h =>
      cases h
      exact ⟨.right, rfl, rfl, hsecond, rfl⟩

theorem update_alone_left {f : σ → σ}
    (h : Interleaved Cell (updateCell f a) (.done b) s t a' b' s') :
    a' = a ∧ b' = b ∧ s' = f s ∧
      t = [readBy .left s, writtenBy .left (f s)] := by
  cases h with
  | left _ hread h =>
    obtain ⟨rfl, rfl⟩ := hread
    cases h with
    | left _ hwrite h =>
      cases h
      exact ⟨rfl, rfl, hwrite, rfl⟩

theorem update_alone_right {f : σ → σ}
    (h : Interleaved Cell (.done a) (updateCell f b) s t a' b' s') :
    a' = a ∧ b' = b ∧ s' = f s ∧
      t = [readBy .right s, writtenBy .right (f s)] := by
  cases h with
  | right _ hread h =>
    obtain ⟨rfl, rfl⟩ := hread
    cases h with
    | right _ hwrite h =>
      cases h
      exact ⟨rfl, rfl, hwrite, rfl⟩

theorem updates_traces {f : Side → σ → σ}
    (h : Interleaved Cell (updateCell (f .left) a) (updateCell (f .right) b) s t a' b' s') :
    a' = a ∧ b' = b ∧ ∃ first : Side,
      (s' = f first.other (f first s) ∧ t = [readBy first s, writtenBy first (f first s),
        readBy first.other (f first s), writtenBy first.other (f first.other (f first s))] ∨
      s' = f first.other s ∧ ∃ opened : Side, t = [readBy opened s, readBy opened.other s,
        writtenBy first (f first s), writtenBy first.other (f first.other s)]) := by
  cases h with
  | left _ hread h =>
    obtain ⟨rfl, rfl⟩ := hread
    cases h with
    | left _ hwrite h =>
      obtain rfl := hwrite
      obtain ⟨rfl, rfl, rfl, rfl⟩ := update_alone_right h
      exact ⟨rfl, rfl, .left, .inl ⟨rfl, rfl⟩⟩
    | right v hread h =>
      obtain ⟨rfl, rfl⟩ := hread
      obtain ⟨first, rfl, rfl, rfl, rfl⟩ := both_write (fun side => f side v) h
      exact ⟨rfl, rfl, first, .inr ⟨rfl, .left, rfl⟩⟩
  | right _ hread h =>
    obtain ⟨rfl, rfl⟩ := hread
    cases h with
    | right _ hwrite h =>
      obtain rfl := hwrite
      obtain ⟨rfl, rfl, rfl, rfl⟩ := update_alone_left h
      exact ⟨rfl, rfl, .right, .inl ⟨rfl, rfl⟩⟩
    | left v hread h =>
      obtain ⟨rfl, rfl⟩ := hread
      obtain ⟨first, rfl, rfl, rfl, rfl⟩ := both_write (fun side => f side v) h
      exact ⟨rfl, rfl, first, .inr ⟨rfl, .right, rfl⟩⟩

theorem updates_interleaved {f : Side → σ → σ}
    (h : Interleaved Cell (updateCell (f .left) a) (updateCell (f .right) b) s t a' b' s') :
    a' = a ∧ b' = b ∧ ∃ first : Side, Before (Writes first) (Writes first.other) t ∧
      ¬ Before (Writes first.other) (Writes first) t ∧
      (Before (Writes first) (Reads first.other) t ∧ s' = f first.other (f first s) ∨
        ¬ Before (Writes first) (Reads first.other) t ∧ s' = f first.other s) := by
  obtain ⟨ha, hb, first, ⟨hs, rfl⟩ | ⟨hs, opened, rfl⟩⟩ := updates_traces h
  · refine ⟨ha, hb, first, ?_, ?_, .inl ⟨?_, hs⟩⟩ <;> cases first <;> simp [Before, Side.other]
  · refine ⟨ha, hb, first, ?_, ?_, .inr ⟨?_, hs⟩⟩ <;> cases first <;> cases opened <;>
      simp [Before, Side.other]

end Inversion

end Cell

end Foundation.AsyncPrograms
