import FaninMcp.Foundation.AsyncPrograms

/-!
# A program that runs alone

The program performs its operations in turn on a state that nothing else
touches. What it exchanged with the state, its operations with their answers,
is kept in order, so that what happened on the way can be spoken about.
-/

set_option autoImplicit false

namespace Foundation.AsyncPrograms

abbrev Exchange (S : Signature) := Σ op : S.Op, S.Ans op

abbrev Semantics (S : Signature) (State : Type) := State → (op : S.Op) → S.Ans op → State → Prop

inductive Runs {S : Signature} {State α : Type} (R : Semantics S State) :
    Prog S α → State → List (Exchange S) → α → State → Prop
  | done (a : α) (s : State) : Runs R (.done a) s [] a s
  | act {op : S.Op} {next : S.Ans op → Prog S α} {ans : S.Ans op} {s s' s'' : State} {a : α}
      {t : List (Exchange S)} : R s op ans s' → Runs R (next ans) s' t a s'' →
      Runs R (.act op next) s (⟨op, ans⟩::t) a s''

section Rules
variable {S : Signature} {State α β : Type} {R R' : Semantics S State} {s s' : State}
  {t : List (Exchange S)}

@[simp] theorem runs_done {a b : α} :
    Runs R (.done a) s t b s' ↔ t = [] ∧ b = a ∧ s' = s := by
  constructor
  · intro h
    cases h
    exact ⟨rfl, rfl, rfl⟩
  · rintro ⟨rfl, rfl, rfl⟩
    exact .done b s'

@[simp] theorem runs_act {op : S.Op} {next : S.Ans op → Prog S α} {a : α} :
    Runs R (.act op next) s t a s' ↔ ∃ ans mid rest, t = ⟨op, ans⟩::rest ∧ R s op ans mid ∧
      Runs R (next ans) mid rest a s' := by
  constructor
  · intro h
    cases h with
    | act hr hrest => exact ⟨_, _, _, rfl, hr, hrest⟩
  · rintro ⟨ans, mid, rest, rfl, hr, hrest⟩
    exact .act hr hrest

theorem runs_bind {p : Prog S β} {f : β → Prog S α} {a : α} :
    Runs R (p >>= f) s t a s' ↔ ∃ t₁ t₂ b mid, t = t₁ ++ t₂ ∧ Runs R p s t₁ b mid ∧
      Runs R (f b) mid t₂ a s' := by
  induction p generalizing s t with
  | done b =>
    constructor
    · intro h
      exact ⟨[], t, b, s, rfl, .done b s, h⟩
    · rintro ⟨_, t₂, _, _, rfl, hp, hf⟩
      obtain ⟨rfl, rfl, rfl⟩ := runs_done.mp hp
      exact hf
  | act op next ih =>
    simp only [act_bind, runs_act, ih]
    constructor
    · rintro ⟨ans, mid, _, rfl, hr, t₁, t₂, b, mid', rfl, hp, hf⟩
      exact ⟨⟨op, ans⟩::t₁, t₂, b, mid', rfl, ⟨ans, mid, t₁, rfl, hr, hp⟩, hf⟩
    · rintro ⟨_, t₂, b, mid', rfl, ⟨ans, mid, t₁, rfl, hr, hp⟩, hf⟩
      exact ⟨ans, mid, t₁ ++ t₂, rfl, hr, t₁, t₂, b, mid', rfl, hp, hf⟩

theorem exists_runs_act {op : S.Op} {next : S.Ans op → Prog S α} {a : α} :
    (∃ t, Runs R (.act op next) s t a s') ↔ ∃ ans mid, R s op ans mid ∧
      ∃ t, Runs R (next ans) mid t a s' := by
  constructor
  · rintro ⟨_, h⟩
    obtain ⟨ans, mid, rest, rfl, hr, hrest⟩ := runs_act.mp h
    exact ⟨ans, mid, hr, rest, hrest⟩
  · rintro ⟨ans, mid, hr, rest, hrest⟩
    exact ⟨⟨op, ans⟩::rest, .act hr hrest⟩

theorem exists_runs_answered {op : S.Op} {next : S.Ans op → Prog S α} {a : α} (ans : S.Ans op)
    (mid : State) (h : ∀ ans' mid', R s op ans' mid' ↔ ans' = ans ∧ mid' = mid) :
    (∃ t, Runs R (.act op next) s t a s') ↔ ∃ t, Runs R (next ans) mid t a s' := by
  rw [exists_runs_act]
  constructor
  · rintro ⟨ans', mid', hr, hrest⟩
    obtain ⟨rfl, rfl⟩ := (h ans' mid').mp hr
    exact hrest
  · exact fun hrest => ⟨ans, mid, (h ans mid).mpr ⟨rfl, rfl⟩, hrest⟩

theorem exists_runs_done {a b : α} :
    (∃ t, Runs R (.done a) s t b s') ↔ b = a ∧ s' = s := by
  simp

theorem exists_runs_bind {p : Prog S β} {f : β → Prog S α} {a : α} :
    (∃ t, Runs R (p >>= f) s t a s') ↔ ∃ b mid, (∃ t, Runs R p s t b mid) ∧
      ∃ t, Runs R (f b) mid t a s' := by
  constructor
  · rintro ⟨_, h⟩
    obtain ⟨t₁, t₂, b, mid, rfl, hp, hf⟩ := runs_bind.mp h
    exact ⟨b, mid, ⟨t₁, hp⟩, t₂, hf⟩
  · rintro ⟨b, mid, ⟨t₁, hp⟩, t₂, hf⟩
    exact ⟨t₁ ++ t₂, runs_bind.mpr ⟨t₁, t₂, b, mid, rfl, hp, hf⟩⟩

theorem prog_bind_pure (p : Prog S α) : (p >>= fun a => .done a) = p := by
  induction p with
  | done a => rfl
  | act op next ih => exact congrArg (Prog.act op) (funext ih)

theorem runs_total (h : ∀ s op, ∃ ans s', R s op ans s') (p : Prog S α) (s : State) :
    ∃ t a s', Runs R p s t a s' := by
  induction p generalizing s with
  | done a => exact ⟨[], a, s, .done a s⟩
  | act op next ih =>
    obtain ⟨ans, mid, hr⟩ := h s op
    obtain ⟨t, a, s', hrest⟩ := ih ans mid
    exact ⟨⟨op, ans⟩::t, a, s', .act hr hrest⟩

theorem all_runs {Q : S.Op → Prop} {T : α → Prop} {p : Prog S α} {a : α} (h : p.All Q T)
    (hr : Runs R p s t a s') : (∀ e ∈ t, Q e.1) ∧ T a := by
  induction hr with
  | done a s => exact ⟨by simp, h⟩
  | @act op next ans _ _ _ _ _ _ _ ih =>
    obtain ⟨hrest, ha⟩ := ih (h.2 ans)
    refine ⟨?_, ha⟩
    rintro e (_ | ⟨_, he⟩)
    · exact h.1
    · exact hrest e he

end Rules

section Answering
variable {S : Signature} {α : Type}

def answering (respond : (op : S.Op) → Option (S.Ans op)) : Semantics S Unit :=
  fun _ op ans _ => respond op = some ans

def evaluate (respond : (op : S.Op) → Option (S.Ans op)) : Prog S α → Option (List (Exchange S) × α)
  | .done a => some ([], a)
  | .act op next => (respond op).bind fun ans =>
    (evaluate respond (next ans)).map fun out => (⟨op, ans⟩ :: out.1, out.2)

theorem runs_answering {respond : (op : S.Op) → Option (S.Ans op)} {p : Prog S α}
    {t : List (Exchange S)} {a : α} :
    Runs (answering respond) p () t a () ↔ evaluate respond p = some (t, a) := by
  induction p generalizing t with
  | done b =>
    simp only [runs_done, evaluate, Option.some.injEq, Prod.mk.injEq, and_true]
    exact and_congr eq_comm eq_comm
  | act op next ih =>
    rw [runs_act, evaluate]
    constructor
    · rintro ⟨ans, _, rest, rfl, hans, hrest⟩
      have hans : respond op = some ans := hans
      rw [hans, Option.bind_some, (ih ans).mp hrest]
      rfl
    · intro h
      obtain ⟨ans, hans, hmap⟩ := Option.bind_eq_some_iff.mp h
      obtain ⟨⟨rest, b⟩, hrest, heq⟩ := Option.map_eq_some_iff.mp hmap
      obtain ⟨rfl, rfl⟩ := Prod.mk.inj heq
      exact ⟨ans, (), rest, rfl, hans, (ih ans).mpr hrest⟩

theorem runs_evaluated {respond : (op : S.Op) → Option (S.Ans op)} {p : Prog S α} {a : α} :
    (∃ t, Runs (answering respond) p () t a ()) ↔ (evaluate respond p).map Prod.snd = some a := by
  simp only [runs_answering, Option.map_eq_some_iff, Prod.exists]
  constructor
  · rintro ⟨t, ht⟩
    exact ⟨t, a, ht, rfl⟩
  · rintro ⟨t, b, ht, rfl⟩
    exact ⟨t, ht⟩

end Answering

end Foundation.AsyncPrograms
