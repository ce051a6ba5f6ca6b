import FaninMcp.Foundation.SequentialRuns
import Mathlib.Data.List.Forall2

/-!
# Two runs side by side

Two programs match when they perform like operations, and go on to match whatever
like answers they are given. When the states answer like operations alike, every run
of the one is accompanied by a run of the other, exchange by exchange.
-/

set_option autoImplicit false

namespace Foundation.AsyncPrograms

/-- Which operations are like each other, and which of their answers. -/
structure Likeness (S : Signature) where
  ops : S.Op → S.Op → Prop
  answers : (op op' : S.Op) → S.Ans op → S.Ans op' → Prop

def Likeness.exchanges {S : Signature} (L : Likeness S) (x y : Exchange S) : Prop :=
  L.ops x.1 y.1 ∧ L.answers x.1 y.1 x.2 y.2

inductive Matches {S : Signature} (L : Likeness S) {α β : Type} (post : α → β → Prop) :
    Prog S α → Prog S β → Prop
  | done {a : α} {b : β} : post a b → Matches L post (.done a) (.done b)
  | act {op op' : S.Op} {next : S.Ans op → Prog S α} {next' : S.Ans op' → Prog S β} :
      L.ops op op' →
      (∀ ans ans', L.answers op op' ans ans' → Matches L post (next ans) (next' ans')) →
      Matches L post (.act op next) (.act op' next')

section Matching
variable {S : Signature} {L : Likeness S} {α β γ δ : Type}

theorem matches_bind {post : γ → δ → Prop} {mid : α → β → Prop} {p : Prog S α} {q : Prog S β}
    {f : α → Prog S γ} {g : β → Prog S δ} (hm : Matches L mid p q)
    (h : ∀ a b, mid a b → Matches L post (f a) (g b)) : Matches L post (p >>= f) (q >>= g) := by
  induction hm with
  | done hmid => exact h _ _ hmid
  | act hops _ ih => exact .act hops ih

def Likeness.Plain (L : Likeness S) (op : S.Op) : Prop :=
  L.ops op op ∧ ∀ ans ans', L.answers op op ans ans' → ans' = ans

theorem matches_self {p : Prog S α} (h : p.All L.Plain fun _ => True) : Matches L Eq p p := by
  induction p with
  | done a => exact .done rfl
  | act op next ih =>
    refine .act h.1.1 fun ans ans' hans => ?_
    rw [h.1.2 ans ans' hans]
    exact ih ans (h.2 ans)

variable {State State' : Type} {R : Semantics S State} {R' : Semantics S State'}

def AnswersAlike (L : Likeness S) (R : Semantics S State) (R' : Semantics S State')
    (rel : State → State' → Prop) : Prop :=
  ∀ {s s' w op op' ans}, rel s w → L.ops op op' → R s op ans s' →
    ∃ ans' w', R' w op' ans' w' ∧ L.answers op op' ans ans' ∧ rel s' w'

theorem matches_runs {rel : State → State' → Prop} (h : AnswersAlike L R R' rel)
    {post : α → β → Prop} {p : Prog S α} {q : Prog S β} (hm : Matches L post p q)
    {s s' : State} {w : State'} {t : List (Exchange S)} {a : α} (hrel : rel s w)
    (hp : Runs R p s t a s') :
    ∃ t' b w', Runs R' q w t' b w' ∧ List.Forall₂ L.exchanges t t' ∧ post a b ∧ rel s' w' := by
  induction hm generalizing s w t with
  | done hpost =>
    obtain ⟨rfl, rfl, rfl⟩ := runs_done.mp hp
    exact ⟨[], _, w, .done _ w, .nil, hpost, hrel⟩
  | @act op op' next next' hops _ ih =>
    obtain ⟨ans, mid, rest, rfl, hr, hrest⟩ := runs_act.mp hp
    obtain ⟨ans', mid', hr', hans, hmid⟩ := h hrel hops hr
    obtain ⟨t', b, w', hq, hlike, hpost, hend⟩ := ih ans ans' hans hmid hrest
    exact ⟨⟨op', ans'⟩::t', b, w', .act hr' hq, .cons ⟨hops, hans⟩ hlike, hpost, hend⟩

end Matching

end Foundation.AsyncPrograms
