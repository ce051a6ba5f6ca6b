import Mathlib.Data.Nat.Notation
import Mathlib.Logic.Function.Basic
import Mathlib.Tactic.SplitIfs

/-!
# Asynchronous programs over shared state

A task is a tree of operations, each followed by the answer the world gives.
Tasks interleave freely between operations, end with a reply, or are dropped
where they wait. A protocol follows one task through its own operations; what
a program obeys it obeys in every interleaving, so an invariant of the shared
state only has to survive the operations the protocol allows.
-/

set_option autoImplicit false

namespace Foundation.AsyncPrograms

/-- The operations of a program and their answers. A task may be dropped only
at an operation that waits. -/
structure Signature where
  Op : Type
  Ans : Op → Type
  awaits : Op → Bool

inductive Prog (S : Signature) (α : Type) : Type where
  | done (value : α)
  | act (op : S.Op) (next : S.Ans op → Prog S α)

section Programs
variable {S : Signature} {α β : Type}

def Prog.bind : Prog S α → (α → Prog S β) → Prog S β
  | .done a, f => f a
  | .act op next, f => .act op (fun ans => (next ans).bind f)

instance : Monad (Prog S) where
  pure := Prog.done
  bind := Prog.bind

def perform (op : S.Op) : Prog S (S.Ans op) := .act op .done

@[simp] theorem pure_eq (a : α) : (pure a : Prog S α) = .done a := rfl

@[simp] theorem done_bind (a : α) (f : α → Prog S β) : (Prog.done a >>= f) = f a := rfl

@[simp] theorem act_bind (op : S.Op) (next : S.Ans op → Prog S α) (f : α → Prog S β) :
    (Prog.act op next >>= f) = .act op (fun ans => next ans >>= f) := rfl

@[simp] theorem perform_bind (op : S.Op) (f : S.Ans op → Prog S β) :
    (perform op >>= f) = .act op f := rfl

theorem prog_bind_assoc {γ : Type} (p : Prog S α) (f : α → Prog S β) (g : β → Prog S γ) :
    (p >>= f) >>= g = p >>= fun a => f a >>= g := by
  induction p with
  | done a => rfl
  | act op next ih => exact congrArg (Prog.act op) (funext ih)

/-- Looks at `poll` whenever the program is about to wait, and turns to
`fallback` once it has fired. -/
def Prog.interruptible (poll : S.Op) (fired : S.Ans poll → Bool) (fallback : Prog S α) :
    Prog S α → Prog S α
  | .done a => .done a
  | .act op next =>
    if S.awaits op then
      .act poll (fun ans =>
        if fired ans then fallback
        else .act op (fun ans => interruptible poll fired fallback (next ans)))
    else .act op (fun ans => interruptible poll fired fallback (next ans))

end Programs

/-- What a task's own operations lead to (`after`) and permit (`may`). -/
structure Protocol (S : Signature) where
  Phase : Type
  idle : Phase
  may : Phase → S.Op → Prop
  after : Phase → (op : S.Op) → S.Ans op → Phase

/-- Whatever the answers, the program performs permitted operations only and
ends in a phase its result accounts for. -/
def Obeys {S : Signature} (P : Protocol S) {α : Type} (post : α → P.Phase → Prop) :
    Prog S α → P.Phase → Prop
  | .done a, φ => post a φ
  | .act op next, φ => P.may φ op ∧ ∀ ans, Obeys P post (next ans) (P.after φ op ans)

section Obedience
variable {S : Signature} {P : Protocol S} {α β : Type}

theorem obeys_mono {post post' : α → P.Phase → Prop} (h : ∀ a φ, post a φ → post' a φ)
    {p : Prog S α} {φ : P.Phase} (hp : Obeys P post p φ) : Obeys P post' p φ := by
  induction p generalizing φ with
  | done a => exact h a φ hp
  | act op next ih => exact ⟨hp.1, fun ans => ih ans (hp.2 ans)⟩

theorem obeys_bind {post : β → P.Phase → Prop} {p : Prog S α} {f : α → Prog S β} {φ : P.Phase}
    (h : Obeys P (fun a φ => Obeys P post (f a) φ) p φ) : Obeys P post (p >>= f) φ := by
  induction p generalizing φ with
  | done a => exact h
  | act op next ih => exact ⟨h.1, fun ans => ih ans (h.2 ans)⟩

def Protocol.within (P : Protocol S) (I : P.Phase → Prop) : Protocol S :=
  { P with may := fun φ op => P.may φ op ∧ I φ }

theorem obeys_permit {may : P.Phase → S.Op → Prop} (h : ∀ φ op, P.may φ op → may φ op)
    {post : α → P.Phase → Prop} {p : Prog S α} {φ : P.Phase} (hp : Obeys P post p φ) :
    Obeys { P with may := may } post p φ := by
  induction p generalizing φ with
  | done a => exact hp
  | act op next ih => exact ⟨h φ op hp.1, fun ans => ih ans (hp.2 ans)⟩

theorem obeys_within_mono {I I' : P.Phase → Prop} (h : ∀ φ, I φ → I' φ) {post : α → P.Phase → Prop}
    {p : Prog S α} {φ : P.Phase} (hp : Obeys (P.within I) post p φ) :
    Obeys (P.within I') post p φ :=
  obeys_permit (P := P.within I) (fun φ _ hmay => ⟨hmay.1, h φ hmay.2⟩) hp

theorem obeys_interruptible {post : α → P.Phase → Prop} {poll : S.Op} {fired : S.Ans poll → Bool}
    {fallback : Prog S α} {p : Prog S α} {φ : P.Phase}
    (hpoll : ∀ φ, P.may φ poll) (hsame : ∀ φ ans, P.after φ poll ans = φ)
    (h : Obeys (P.within fun φ => Obeys P post fallback φ) post p φ) :
    Obeys P post (Prog.interruptible poll fired fallback p) φ := by
  induction p generalizing φ with
  | done a => exact h
  | act op next ih =>
    obtain ⟨⟨hmay, hfall⟩, hnext⟩ := h
    rw [Prog.interruptible]
    split_ifs with hw
    · refine ⟨hpoll φ, fun ans => ?_⟩
      rw [hsame]
      dsimp only
      split_ifs with hf
      · exact hfall
      · exact ⟨hmay, fun ans => ih ans (hnext ans)⟩
    · exact ⟨hmay, fun ans => ih ans (hnext ans)⟩

theorem obeys_interruptible_fired {post : α → P.Phase → Prop} {poll : S.Op}
    {fired : S.Ans poll → Bool} {fallback : Prog S α} {p : Prog S α} {φ : P.Phase}
    (hwait : ∀ φ op, S.awaits op = true → P.may φ op → P.may φ poll ∧ ∀ ans,
      if fired ans then Obeys P post fallback (P.after φ poll ans) else P.after φ poll ans = φ)
    (h : Obeys P post p φ) : Obeys P post (Prog.interruptible poll fired fallback p) φ := by
  induction p generalizing φ with
  | done a => exact h
  | act op next ih =>
    have hnext : Obeys P post
        (.act op fun ans => Prog.interruptible poll fired fallback (next ans)) φ :=
      ⟨h.1, fun ans => ih ans (h.2 ans)⟩
    rw [Prog.interruptible]
    split_ifs with hw
    · obtain ⟨hpoll, hans⟩ := hwait φ op hw h.1
      refine ⟨hpoll, fun ans => ?_⟩
      have hafter := hans ans
      dsimp only
      split_ifs at hafter ⊢
      · exact hafter
      · rw [hafter]
        exact hnext
    · exact hnext

theorem obeys_interruptible_waiting {post : α → P.Phase → Prop} {poll : S.Op}
    {fired : S.Ans poll → Bool} {fallback : Prog S α} {p : Prog S α} {φ : P.Phase}
    (hwait : ∀ φ op, S.awaits op = true → P.may φ op →
      P.may φ poll ∧ (∀ ans, P.after φ poll ans = φ) ∧ Obeys P post fallback φ)
    (h : Obeys P post p φ) : Obeys P post (Prog.interruptible poll fired fallback p) φ := by
  refine obeys_interruptible_fired (fun φ op hw hmay => ?_) h
  obtain ⟨hpoll, hsame, hfall⟩ := hwait φ op hw hmay
  refine ⟨hpoll, fun ans => ?_⟩
  rw [hsame]
  split_ifs
  · exact hfall
  · rfl

theorem obeys_interruptible_anywhere {post : α → P.Phase → Prop} {poll : S.Op}
    {fired : S.Ans poll → Bool} {fallback : Prog S α} {p : Prog S α} {φ : P.Phase}
    (hpoll : ∀ φ, P.may φ poll) (hsame : ∀ φ ans, P.after φ poll ans = φ)
    (hfall : ∀ φ, Obeys P post fallback φ) (h : Obeys P post p φ) :
    Obeys P post (Prog.interruptible poll fired fallback p) φ := by
  apply obeys_interruptible hpoll hsame
  induction p generalizing φ with
  | done a => exact h
  | act op next ih => exact ⟨⟨h.1, hfall φ⟩, fun ans => ih ans (h.2 ans)⟩

/-- Only the operations in `Q` are performed, with a result in `R`. -/
def Prog.All (Q : S.Op → Prop) (R : α → Prop) : Prog S α → Prop
  | .done a => R a
  | .act op next => Q op ∧ ∀ ans, All Q R (next ans)

theorem all_mono {Q Q' : S.Op → Prop} {R R' : α → Prop} (hQ : ∀ op, Q op → Q' op)
    (hR : ∀ a, R a → R' a) {p : Prog S α} (h : p.All Q R) : p.All Q' R' := by
  induction p with
  | done a => exact hR a h
  | act op next ih => exact ⟨hQ op h.1, fun ans => ih ans (h.2 ans)⟩

theorem all_always {R : α → Prop} (h : ∀ a, R a) (p : Prog S α) : p.All (fun _ => True) R := by
  induction p with
  | done a => exact h a
  | act op next ih => exact ⟨trivial, ih⟩

theorem all_bind {Q : S.Op → Prop} {R : β → Prop} {p : Prog S α} {f : α → Prog S β}
    (h : p.All Q (fun a => (f a).All Q R)) : (p >>= f).All Q R := by
  induction p with
  | done a => exact h
  | act op next ih => exact ⟨h.1, fun ans => ih ans (h.2 ans)⟩

theorem all_interruptible {Q : S.Op → Prop} {R : α → Prop} {poll : S.Op}
    {fired : S.Ans poll → Bool} {fallback p : Prog S α} (hpoll : Q poll)
    (hfall : fallback.All Q R) (h : p.All Q R) :
    (Prog.interruptible poll fired fallback p).All Q R := by
  induction p with
  | done a => exact h
  | act op next ih =>
    have hnext : (Prog.act op fun ans =>
        Prog.interruptible poll fired fallback (next ans)).All Q R :=
      ⟨h.1, fun ans => ih ans (h.2 ans)⟩
    rw [Prog.interruptible]
    split_ifs with hw
    · refine ⟨hpoll, fun ans => ?_⟩
      dsimp only
      split_ifs
      · exact hfall
      · exact hnext
    · exact hnext

theorem obeys_quiet {Q : S.Op → Prop} {R : α → Prop} {post : α → P.Phase → Prop} {p : Prog S α}
    {φ : P.Phase} (hquiet : ∀ op, Q op → P.may φ op ∧ ∀ ans, P.after φ op ans = φ)
    (hpost : ∀ a, R a → post a φ) (h : p.All Q R) : Obeys P post p φ := by
  induction p with
  | done a => exact hpost a h
  | act op next ih =>
    obtain ⟨hmay, hsame⟩ := hquiet op h.1
    exact ⟨hmay, fun ans => (hsame ans).symm ▸ ih ans (h.2 ans)⟩

theorem obeys_all {Q : S.Op → Prop} {R : α → Prop} {p : Prog S α} {φ : P.Phase}
    (hmay : ∀ φ op, Q op → P.may φ op) (h : p.All Q R) : Obeys P (fun a _ => R a) p φ := by
  induction p generalizing φ with
  | done a => exact h
  | act op next ih => exact ⟨hmay φ op h.1, fun ans => ih ans (h.2 ans)⟩

end Obedience

section Outcomes
variable {S : Signature} {P : Protocol S} {α β ε : Type} {post : β → P.Phase → Prop} {φ : P.Phase}

/-- What a result accounts for, and what an error does. -/
def Comes {Φ : Type} (ok : α → Φ → Prop) (bad : ε → Φ → Prop) : Except ε α → Φ → Prop
  | .ok a => ok a
  | .error e => bad e

def Finds {Φ : Type} (found : α → Φ → Prop) (missed : Φ → Prop) : Option α → Φ → Prop
  | some a => found a
  | none => missed

theorem comes_same {Φ : Type} {Q : Φ → Prop} {out : Except ε α} {φ : Φ} :
    Comes (fun _ => Q) (fun _ => Q) out φ ↔ Q φ := by
  cases out <;> exact Iff.rfl

theorem obeys_except {ok : α → P.Phase → Prop} {bad : ε → P.Phase → Prop} {p : Prog S (Except ε α)}
    {f : Except ε α → Prog S β} (hp : Obeys P (Comes ok bad) p φ)
    (hbad : ∀ e ψ, bad e ψ → Obeys P post (f (.error e)) ψ)
    (hok : ∀ a ψ, ok a ψ → Obeys P post (f (.ok a)) ψ) : Obeys P post (p >>= f) φ := by
  refine obeys_bind (obeys_mono (fun out ψ hψ => ?_) hp)
  cases out with
  | error e => exact hbad e ψ hψ
  | ok a => exact hok a ψ hψ

theorem obeys_option {found : α → P.Phase → Prop} {missed : P.Phase → Prop}
    {p : Prog S (Option α)} {f : Option α → Prog S β} (hp : Obeys P (Finds found missed) p φ)
    (hfound : ∀ a ψ, found a ψ → Obeys P post (f (some a)) ψ)
    (hmissed : ∀ ψ, missed ψ → Obeys P post (f none) ψ) : Obeys P post (p >>= f) φ := by
  refine obeys_bind (obeys_mono (fun out ψ hψ => ?_) hp)
  cases out with
  | none => exact hmissed ψ hψ
  | some a => exact hfound a ψ hψ

/-- A protocol without phases, that permits these operations. -/
def Protocol.only (Q : S.Op → Prop) : Protocol S := ⟨Unit, (), fun _ => Q, fun _ _ _ => ()⟩

theorem obeys_only {Q : S.Op → Prop} {R : α → Prop} {p : Prog S α} :
    Obeys (Protocol.only Q) (fun a _ => R a) p () ↔ p.All Q R := by
  induction p with
  | done a => exact Iff.rfl
  | act op next ih => exact and_congr_right fun _ => forall_congr' ih

end Outcomes

/-- What the program comes to, as long as the answers are as expected. -/
def Under {S : Signature} (G : (op : S.Op) → S.Ans op → Prop) (P : Protocol S) {α : Type}
    (post : α → P.Phase → Prop) : Prog S α → P.Phase → Prop
  | .done a, φ => post a φ
  | .act op next, φ => ∀ ans, G op ans → Under G P post (next ans) (P.after φ op ans)

section Expectation
variable {S : Signature} {G : (op : S.Op) → S.Ans op → Prop} {P : Protocol S} {α β : Type}

theorem under_mono {post post' : α → P.Phase → Prop} (h : ∀ a φ, post a φ → post' a φ)
    {p : Prog S α} {φ : P.Phase} (hp : Under G P post p φ) : Under G P post' p φ := by
  induction p generalizing φ with
  | done a => exact h a φ hp
  | act op next ih => exact fun ans hg => ih ans (hp ans hg)

theorem under_always {post : α → P.Phase → Prop} (h : ∀ a φ, post a φ) (p : Prog S α)
    (φ : P.Phase) : Under G P post p φ := by
  induction p generalizing φ with
  | done a => exact h a φ
  | act op next ih => exact fun ans _ => ih ans _

theorem under_all {Q : S.Op → Prop} {R : α → Prop} {p : Prog S α} (h : p.All Q R) (φ : P.Phase) :
    Under G P (fun a _ => R a) p φ := by
  induction p generalizing φ with
  | done a => exact h
  | act op next ih => exact fun ans _ => ih ans (h.2 ans) _

theorem under_bind {post : β → P.Phase → Prop} {p : Prog S α} {f : α → Prog S β} {φ : P.Phase}
    (h : Under G P (fun a φ => Under G P post (f a) φ) p φ) : Under G P post (p >>= f) φ := by
  induction p generalizing φ with
  | done a => exact h
  | act op next ih => exact fun ans hg => ih ans (h ans hg)

theorem under_interruptible {post : α → P.Phase → Prop} {poll : S.Op} {fired : S.Ans poll → Bool}
    {fallback p : Prog S α} {φ : P.Phase} (hpoll : ∀ ans, G poll ans → fired ans = false)
    (hsame : ∀ φ ans, P.after φ poll ans = φ) (h : Under G P post p φ) :
    Under G P post (Prog.interruptible poll fired fallback p) φ := by
  induction p generalizing φ with
  | done a => exact h
  | act op next ih =>
    rw [Prog.interruptible]
    split_ifs with hw
    · intro ans hg
      rw [hsame]
      dsimp only
      rw [if_neg (by simp [hpoll ans hg])]
      exact fun ans hg => ih ans (h ans hg)
    · exact fun ans hg => ih ans (h ans hg)

theorem under_and {post post' : α → P.Phase → Prop} {p : Prog S α} {φ : P.Phase}
    (h : Under G P post p φ) (h' : Under G P post' p φ) :
    Under G P (fun a φ => post a φ ∧ post' a φ) p φ := by
  induction p generalizing φ with
  | done a => exact ⟨h, h'⟩
  | act op next ih => exact fun ans hg => ih ans (h ans hg) (h' ans hg)

theorem under_fewer {G' : (op : S.Op) → S.Ans op → Prop} (hG : ∀ op ans, G' op ans → G op ans)
    {post : α → P.Phase → Prop} {p : Prog S α} {φ : P.Phase} (h : Under G P post p φ) :
    Under G' P post p φ := by
  induction p generalizing φ with
  | done a => exact h
  | act op next ih => exact fun ans hg => ih ans (h ans (hG op ans hg))

theorem under_exists {R : α → Prop} {post : α → P.Phase → Prop} {p : Prog S α} {φ : P.Phase}
    (hanswered : p.All (fun op => ∃ ans, G op ans) R) (h : Under G P post p φ) :
    ∃ a φ, post a φ := by
  induction p generalizing φ with
  | done a => exact ⟨a, φ, h⟩
  | act op next ih =>
    obtain ⟨⟨ans, hg⟩, hnext⟩ := hanswered
    exact ih ans (hnext ans) (h ans hg)

end Expectation

/-- The shared state, how an operation answered in a certain way may change it
on behalf of a task, what happens outside the program, and what dropping a task
releases. -/
structure World (S : Signature) where
  State : Type
  Env : Type
  Performs : ℕ → State → (op : S.Op) → S.Ans op → State → Prop
  outside : State → Env → Option State
  release : ℕ → State → State

structure Service (S : Signature) where
  Request : Type
  Reply : Type
  program : Request → Prog S Reply

section Systems
variable {S : Signature} (W : World S) (V : Service S)

structure System where
  shared : W.State
  tasks : ℕ → Option (V.Request × Prog S V.Reply)

inductive Event where
  | spawn (i : ℕ) (request : V.Request)
  | act (i : ℕ) (op : S.Op) (ans : S.Ans op)
  | finish (i : ℕ) (request : V.Request) (reply : V.Reply)
  | drop (i : ℕ)
  | outside (e : W.Env)

variable {W V}

def System.assign (σ : System W V) (i : ℕ) (task : Option (V.Request × Prog S V.Reply))
    (shared : W.State) : System W V :=
  ⟨shared, Function.update σ.tasks i task⟩

@[simp] theorem assign_shared (σ : System W V) (i : ℕ)
    (task : Option (V.Request × Prog S V.Reply)) (shared : W.State) :
    (σ.assign i task shared).shared = shared := rfl

@[simp] theorem assign_self (σ : System W V) (i : ℕ)
    (task : Option (V.Request × Prog S V.Reply)) (shared : W.State) :
    (σ.assign i task shared).tasks i = task := by
  simp [System.assign]

theorem assign_other (σ : System W V) {i j : ℕ} (h : j ≠ i)
    (task : Option (V.Request × Prog S V.Reply)) (shared : W.State) :
    (σ.assign j task shared).tasks i = σ.tasks i := by
  simp [System.assign, Ne.symm h]

inductive Step : System W V → Event W V → System W V → Prop
  | spawn {σ : System W V} {i : ℕ} (request : V.Request) : σ.tasks i = none →
      Step σ (.spawn i request) (σ.assign i (some (request, V.program request)) σ.shared)
  | act {σ : System W V} {i : ℕ} {request : V.Request} {op : S.Op}
      {next : S.Ans op → Prog S V.Reply} {ans : S.Ans op} {shared : W.State} :
      σ.tasks i = some (request, .act op next) → W.Performs i σ.shared op ans shared →
      Step σ (.act i op ans) (σ.assign i (some (request, next ans)) shared)
  | finish {σ : System W V} {i : ℕ} {request : V.Request} {reply : V.Reply} :
      σ.tasks i = some (request, .done reply) →
      Step σ (.finish i request reply) (σ.assign i none σ.shared)
  | drop {σ : System W V} {i : ℕ} {request : V.Request} {op : S.Op}
      {next : S.Ans op → Prog S V.Reply} :
      σ.tasks i = some (request, .act op next) → S.awaits op = true →
      Step σ (.drop i) (σ.assign i none (W.release i σ.shared))
  | outside {σ : System W V} {e : W.Env} {shared : W.State} : W.outside σ.shared e = some shared →
      Step σ (.outside e) ⟨shared, σ.tasks⟩

/-- A run and its events, the latest first. `K` is a condition every step meets
in the state it is taken from. -/
inductive Run (start : W.State) (K : List (Event W V) → W.State → Event W V → Prop) :
    List (Event W V) → System W V → Prop
  | start : Run start K [] ⟨start, fun _ => none⟩
  | step {es : List (Event W V)} {σ σ' : System W V} {e : Event W V} :
      Run start K es σ → K es σ.shared e → Step σ e σ' → Run start K (e::es) σ'

def trail (P : Protocol S) (i : ℕ) : List (Event W V) → P.Phase
  | [] => P.idle
  | .act j op ans::es => if j = i then P.after (trail P i es) op ans else trail P i es
  | .spawn j _::es => if j = i then P.idle else trail P i es
  | .finish j _ _::es => if j = i then P.idle else trail P i es
  | .drop j::es => if j = i then P.idle else trail P i es
  | .outside _::es => trail P i es

theorem trail_map {P P' : Protocol S} (f : P.Phase → P'.Phase) (hidle : f P.idle = P'.idle)
    (hafter : ∀ φ op ans, f (P.after φ op ans) = P'.after (f φ) op ans) (i : ℕ)
    (es : List (Event W V)) : f (trail P i es) = trail P' i es := by
  induction es with
  | nil => exact hidle
  | cons e es ih =>
    cases e with
    | outside _ => exact ih
    | act j op ans =>
      by_cases hj : j = i
      · subst hj
        simpa [trail, ← ih] using hafter _ op ans
      · simpa [trail, hj] using ih
    | spawn j _ | finish j _ _ | drop j =>
      by_cases hj : j = i
      · simpa [trail, hj] using hidle
      · simpa [trail, hj] using ih

def Event.task : Event W V → Option ℕ
  | .spawn i _ | .act i _ _ | .finish i _ _ | .drop i => some i
  | .outside _ => none

theorem trail_absent (P : Protocol S) {i : ℕ} {es : List (Event W V)}
    (h : ∀ e ∈ es, e.task ≠ some i) : trail P i es = P.idle := by
  induction es with
  | nil => rfl
  | cons e es ih =>
    have hrest := ih fun e' he => h e' (List.mem_cons_of_mem _ he)
    have hne := h e List.mem_cons_self
    cases e with
    | outside _ => exact hrest
    | spawn j _ | act j _ _ | finish j _ _ | drop j =>
      have hj : j ≠ i := fun hj => hne (congrArg some hj)
      simpa [trail, hj] using hrest

theorem trail_other (P : Protocol S) {i : ℕ} {e : Event W V} (es : List (Event W V))
    (h : e.task ≠ some i) : trail P i (e::es) = trail P i es := by
  cases e with
  | outside _ => rfl
  | spawn j _ | act j _ _ | finish j _ _ | drop j =>
    have hj : j ≠ i := fun hj => h (congrArg some hj)
    simp [trail, hj]

theorem trail_act (P : Protocol S) (i : ℕ) (op : S.Op) (ans : S.Ans op)
    (es : List (Event W V)) : (fun j => trail P j (.act i op ans::es)) =
      Function.update (fun j => trail P j es) i (P.after (trail P i es) op ans) := by
  funext j
  by_cases h : j = i
  · subst h
    simp [trail]
  · simp [trail, h, Ne.symm h]

theorem trail_restart {P : Protocol S} {i : ℕ} {e : Event W V} {es : List (Event W V)}
    (h : ∀ j, trail P j (e::es) = if i = j then P.idle else trail P j es) :
    (fun j => trail P j (e::es)) = Function.update (fun j => trail P j es) i P.idle := by
  funext j
  rw [h j]
  rcases eq_or_ne j i with rfl | hj
  · rw [if_pos rfl, Function.update_self]
  · rw [if_neg (Ne.symm hj), Function.update_of_ne hj]

theorem trail_spawn (P : Protocol S) (i : ℕ) (request : V.Request) (es : List (Event W V)) :
    (fun j => trail P j (.spawn i request::es)) =
      Function.update (fun j => trail P j es) i P.idle := trail_restart fun _ => rfl

theorem trail_finish (P : Protocol S) (i : ℕ) (request : V.Request) (reply : V.Reply)
    (es : List (Event W V)) : (fun j => trail P j (.finish i request reply::es)) =
      Function.update (fun j => trail P j es) i P.idle := trail_restart fun _ => rfl

theorem trail_drop (P : Protocol S) (i : ℕ) (es : List (Event W V)) :
    (fun j => trail P j (.drop i::es)) = Function.update (fun j => trail P j es) i P.idle :=
  trail_restart fun _ => rfl

variable {start : W.State} {K : List (Event W V) → W.State → Event W V → Prop}
  {P : Protocol S} {post : V.Request → V.Reply → P.Phase → Prop}

theorem run_weaken {K' : List (Event W V) → W.State → Event W V → Prop}
    (h : ∀ es σ e, K es σ e → K' es σ e) {es : List (Event W V)} {σ : System W V}
    (hr : Run start K es σ) : Run start K' es σ := by
  induction hr with
  | start => exact Run.start
  | step _ hk hs ih => exact Run.step ih (h _ _ _ hk) hs

theorem run_strengthen {I : List (Event W V) → W.State → Prop}
    (hI : ∀ es σ, Run start K es σ → I es σ.shared) {es : List (Event W V)} {σ : System W V}
    (hr : Run start K es σ) : Run start (fun es σ e => K es σ e ∧ I es σ) es σ := by
  induction hr with
  | start => exact Run.start
  | step hr hk hs ih => exact Run.step ih ⟨hk, hI _ _ hr⟩ hs

theorem idle_without_events {es : List (Event W V)} {σ : System W V} (h : Run start K es σ) {i : ℕ}
    (hno : ∀ e ∈ es, e.task ≠ some i) : σ.tasks i = none := by
  induction h with
  | start => rfl
  | @step es σ σ' e _ _ hs ih =>
    have hrest := ih fun e' he => hno e' (List.mem_cons_of_mem _ he)
    have hne := hno e List.mem_cons_self
    cases hs with
    | outside _ => exact hrest
    | @spawn j _ _ | @act j _ _ _ _ _ _ _ | @finish j _ _ _ | @drop j _ _ _ _ _ =>
      rw [assign_other σ fun hj : j = i => hne (congrArg some hj)]
      exact hrest

theorem run_spawned {es : List (Event W V)} {σ : System W V} (h : Run start K es σ) {i : ℕ}
    {r : V.Request} {p : Prog S V.Reply} (hi : σ.tasks i = some (r, p)) : .spawn i r ∈ es := by
  induction h generalizing p with
  | start => cases hi
  | @step es σ σ' e _ _ hs ih =>
    cases hs with
    | outside _ => exact List.mem_cons_of_mem _ (ih hi)
    | @spawn j _ _ =>
      by_cases hj : j = i
      · subst hj
        simp only [assign_self, Option.some.injEq, Prod.mk.injEq] at hi
        exact hi.1 ▸ List.mem_cons_self
      · rw [assign_other σ hj] at hi
        exact List.mem_cons_of_mem _ (ih hi)
    | @act j _ _ _ _ _ hj' _ =>
      by_cases hj : j = i
      · subst hj
        simp only [assign_self, Option.some.injEq, Prod.mk.injEq] at hi
        exact List.mem_cons_of_mem _ (ih (hi.1 ▸ hj'))
      · rw [assign_other σ hj] at hi
        exact List.mem_cons_of_mem _ (ih hi)
    | @finish j _ _ _ | @drop j _ _ _ _ _ =>
      by_cases hj : j = i
      · subst hj
        simp at hi
      · rw [assign_other σ hj] at hi
        exact List.mem_cons_of_mem _ (ih hi)

def requestOf (i : ℕ) : List (Event W V) → Option V.Request
  | [] => none
  | .spawn j r::es => if j = i then some r else requestOf i es
  | .finish j _ _::es => if j = i then none else requestOf i es
  | .drop j::es => if j = i then none else requestOf i es
  | .act _ _ _::es => requestOf i es
  | .outside _::es => requestOf i es

theorem run_request {es : List (Event W V)} {σ : System W V} (h : Run start K es σ) (i : ℕ) :
    requestOf i es = (σ.tasks i).map Prod.fst := by
  induction h with
  | start => rfl
  | @step es σ σ' e _ _ hs ih =>
    cases hs with
    | outside _ => exact ih
    | @act j _ _ _ _ _ hj' _ =>
      by_cases hj : j = i
      · subst hj
        rw [requestOf, ih, hj', assign_self]
        rfl
      · rw [requestOf, ih, assign_other σ hj]
    | @spawn j _ _ | @finish j _ _ _ | @drop j _ _ _ _ _ =>
      by_cases hj : j = i
      · subst hj
        simp [requestOf]
      · simp [requestOf, hj, ih, assign_other σ hj]

theorem trail_idle {es : List (Event W V)} {σ : System W V} (h : Run start K es σ) {i : ℕ}
    (hi : σ.tasks i = none) : trail P i es = P.idle := by
  induction h with
  | start => rfl
  | @step es σ σ' e _ _ hs ih =>
    cases hs with
    | outside _ => exact ih hi
    | @spawn j _ _ | @act j _ _ _ _ _ _ _ | @finish j _ _ _ | @drop j _ _ _ _ _ =>
      by_cases hj : j = i
      · subst hj
        simp_all [trail]
      · rw [assign_other σ hj] at hi
        simpa [trail, hj] using ih hi

/-- What a program keeps when an answer comes in, as long as its answers are as
expected, holds of what is left of it in every interleaving. -/
theorem run_follows {T : V.Request → Prog S V.Reply → P.Phase → Prop}
    {G : (op : S.Op) → S.Ans op → Prop} {i : ℕ}
    (hnext : ∀ r op next φ ans, T r (.act op next) φ → G op ans → T r (next ans) (P.after φ op ans))
    (hG : ∀ es σ op ans σ', K es σ (.act i op ans) → W.Performs i σ op ans σ' → G op ans)
    (hprog : ∀ r, T r (V.program r) P.idle) {es : List (Event W V)} {σ : System W V}
    (h : Run start K es σ) {r : V.Request} {p : Prog S V.Reply}
    (hi : σ.tasks i = some (r, p)) : T r p (trail P i es) := by
  induction h generalizing r p with
  | start => cases hi
  | @step es σ σ' e _ hk hs ih =>
    cases hs with
    | outside _ => exact ih hi
    | @spawn j r' _ =>
      by_cases hj : j = i
      · subst hj
        simp only [assign_self, Option.some.injEq, Prod.mk.injEq] at hi
        obtain ⟨rfl, rfl⟩ := hi
        simpa [trail] using hprog r'
      · rw [assign_other σ hj] at hi
        simpa [trail, hj] using ih hi
    | @act j r' op next ans _ hj' hp =>
      by_cases hj : j = i
      · subst hj
        simp only [assign_self, Option.some.injEq, Prod.mk.injEq] at hi
        obtain ⟨rfl, rfl⟩ := hi
        simpa [trail] using hnext _ op next _ ans (ih hj') (hG _ _ _ _ _ hk hp)
      · rw [assign_other σ hj] at hi
        simpa [trail, hj] using ih hi
    | @finish j _ _ _ | @drop j _ _ _ _ _ =>
      by_cases hj : j = i
      · subst hj
        simp at hi
      · rw [assign_other σ hj] at hi
        simpa [trail, hj] using ih hi

/-- In every interleaving a running task is left with a program that obeys the
protocol from the phase its own events have led to. -/
theorem run_obeys (hprog : ∀ r, Obeys P (post r) (V.program r) P.idle) {es : List (Event W V)}
    {σ : System W V} (h : Run start K es σ) {i : ℕ} {r : V.Request} {p : Prog S V.Reply}
    (hi : σ.tasks i = some (r, p)) : Obeys P (post r) p (trail P i es) :=
  run_follows (T := fun r p φ => Obeys P (post r) p φ) (G := fun _ _ => True)
    (fun _ _ _ _ ans ht _ => ht.2 ans) (fun _ _ _ _ _ _ _ => trivial) hprog h hi

theorem run_under {G : (op : S.Op) → S.Ans op → Prop} {i : ℕ}
    (hG : ∀ es σ op ans σ', K es σ (.act i op ans) → W.Performs i σ op ans σ' → G op ans)
    (hprog : ∀ r, Under G P (post r) (V.program r) P.idle) {es : List (Event W V)}
    {σ σ' : System W V} (h : Run start K es σ) {r : V.Request} {reply : V.Reply}
    (hs : Step σ (.finish i r reply) σ') : post r reply (trail P i es) := by
  cases hs with
  | finish hi =>
    exact run_follows (T := fun r p φ => Under G P (post r) p φ)
      (fun _ _ _ _ ans ht hg => ht ans hg) hG hprog h hi

def actedProtocol (S : Signature) : Protocol S := ⟨Bool, false, fun _ _ => True, fun _ _ _ => true⟩

theorem untouched {es : List (Event W V)} {σ : System W V} (h : Run start K es σ) {i : ℕ}
    {r : V.Request} {p : Prog S V.Reply} (hi : σ.tasks i = some (r, p))
    (hacted : trail (actedProtocol S) i es = false) :
    ∃ middle before, es = middle ++ .spawn i r::before ∧ ∀ e ∈ middle, e.task ≠ some i := by
  induction h generalizing r p with
  | start => cases hi
  | @step es σ σ' e _ _ hs ih =>
    have hextend : ∀ {r : V.Request} {p : Prog S V.Reply}, e.task ≠ some i →
        σ.tasks i = some (r, p) → trail (actedProtocol S) i es = false →
        ∃ middle before, e::es = middle ++ .spawn i r::before ∧ ∀ e ∈ middle, e.task ≠ some i := by
      intro r p he hi ha
      obtain ⟨middle, before, rfl, hm⟩ := ih hi ha
      exact ⟨e::middle, before, rfl, List.forall_mem_cons.mpr ⟨he, hm⟩⟩
    cases hs with
    | outside _ => exact hextend (by simp [Event.task]) hi hacted
    | @spawn j r' _ =>
      by_cases hj : j = i
      · subst hj
        simp only [assign_self, Option.some.injEq, Prod.mk.injEq] at hi
        obtain ⟨rfl, _⟩ := hi
        exact ⟨[], es, rfl, by simp⟩
      · rw [assign_other σ hj] at hi
        exact hextend (by simpa [Event.task] using hj) hi (by simpa [trail, hj] using hacted)
    | @act j _ _ _ _ _ _ _ =>
      by_cases hj : j = i
      · subst hj
        simp [trail, actedProtocol] at hacted
      · rw [assign_other σ hj] at hi
        exact hextend (by simpa [Event.task] using hj) hi (by simpa [trail, hj] using hacted)
    | @finish j _ _ _ | @drop j _ _ _ _ _ =>
      by_cases hj : j = i
      · subst hj
        simp at hi
      · rw [assign_other σ hj] at hi
        exact hextend (by simpa [Event.task] using hj) hi (by simpa [trail, hj] using hacted)

/-- What an invariant of history and shared state has to survive. -/
structure Preserved (start : W.State) (K : List (Event W V) → W.State → Event W V → Prop)
    (P : Protocol S) (post : V.Request → V.Reply → P.Phase → Prop)
    (J : List (Event W V) → W.State → Prop) : Prop where
  start : J [] start
  spawn : ∀ es σ i r, J es σ → trail P i es = P.idle → J (.spawn i r::es) σ
  act : ∀ es σ i op ans σ', J es σ → K es σ (.act i op ans) → P.may (trail P i es) op →
    W.Performs i σ op ans σ' → J (.act i op ans::es) σ'
  finish : ∀ es σ i r reply, J es σ → post r reply (trail P i es) → J (.finish i r reply::es) σ
  drop : ∀ es σ i, J es σ → K es σ (.drop i) → J (.drop i::es) (W.release i σ)
  outside : ∀ es σ e σ', J es σ → K es σ (.outside e) → W.outside σ e = some σ' →
    J (.outside e::es) σ'

theorem run_preserved {J : List (Event W V) → W.State → Prop}
    (hprog : ∀ r, Obeys P (post r) (V.program r) P.idle) (hJ : Preserved start K P post J)
    {es : List (Event W V)} {σ : System W V} (h : Run start K es σ) : J es σ.shared := by
  induction h with
  | start => exact hJ.start
  | @step es σ σ' e hr hk hs ih =>
    cases hs with
    | @spawn i r hi => exact hJ.spawn es _ i r ih (trail_idle hr hi)
    | @act i r op next ans shared hi hp =>
      exact hJ.act es _ i op ans shared ih hk (run_obeys hprog hr hi).1 hp
    | @finish i r reply hi => exact hJ.finish es _ i r reply ih (run_obeys hprog hr hi)
    | @drop i r op next hi hw => exact hJ.drop es _ i ih hk
    | @outside e shared ho => exact hJ.outside es _ e shared ih hk ho

/-- What an invariant of the phases of all tasks and of the shared state has to
survive. A task is reset when it is spawned, and when it has come to its reply. -/
structure PhasesPreserved (start : W.State) (K : List (Event W V) → W.State → Event W V → Prop)
    (P : Protocol S) (post : V.Request → V.Reply → P.Phase → Prop)
    (J : (ℕ → P.Phase) → W.State → Prop) : Prop where
  start : J (fun _ => P.idle) start
  reset : ∀ φ σ i, J φ σ → (φ i = P.idle ∨ ∃ r reply, post r reply (φ i)) →
    J (Function.update φ i P.idle) σ
  act : ∀ es σ i op ans σ', J (fun j => trail P j es) σ → K es σ (.act i op ans) →
    P.may (trail P i es) op → W.Performs i σ op ans σ' →
    J (Function.update (fun j => trail P j es) i (P.after (trail P i es) op ans)) σ'
  drop : ∀ es σ i, J (fun j => trail P j es) σ → K es σ (.drop i) →
    J (Function.update (fun j => trail P j es) i P.idle) (W.release i σ)
  outside : ∀ es σ e σ', J (fun j => trail P j es) σ → K es σ (.outside e) →
    W.outside σ e = some σ' → J (fun j => trail P j es) σ'

theorem run_phases {J : (ℕ → P.Phase) → W.State → Prop}
    (hprog : ∀ r, Obeys P (post r) (V.program r) P.idle) (hJ : PhasesPreserved start K P post J)
    {es : List (Event W V)} {σ : System W V} (h : Run start K es σ) :
    J (fun i => trail P i es) σ.shared := by
  refine run_preserved (J := fun es σ => J (fun i => trail P i es) σ) hprog ?_ h
  constructor
  case start => exact hJ.start
  case spawn =>
    intro es σ i r hφ hi
    rw [trail_spawn]
    exact hJ.reset _ σ i hφ (Or.inl hi)
  case act =>
    intro es σ i op ans σ' hφ hk hm hp
    rw [trail_act]
    exact hJ.act es σ i op ans σ' hφ hk hm hp
  case finish =>
    intro es σ i r reply hφ hpost
    rw [trail_finish]
    exact hJ.reset _ σ i hφ (Or.inr ⟨r, reply, hpost⟩)
  case drop =>
    intro es σ i hφ hk
    rw [trail_drop]
    exact hJ.drop es σ i hφ hk
  case outside => exact hJ.outside

theorem run_invariant {I : W.State → Prop} (hstart : I start)
    (hact : ∀ i σ op ans σ', I σ → W.Performs i σ op ans σ' → I σ')
    (hdrop : ∀ i σ, I σ → I (W.release i σ))
    (hout : ∀ es σ e σ', I σ → K es σ (.outside e) → W.outside σ e = some σ' → I σ')
    {es : List (Event W V)} {σ : System W V} (h : Run start K es σ) : I σ.shared := by
  induction h with
  | start => exact hstart
  | @step es σ σ' e _ hk hs ih =>
    cases hs with
    | spawn _ _ => exact ih
    | act _ hp => exact hact _ _ _ _ _ ih hp
    | finish _ => exact ih
    | drop _ _ => exact hdrop _ _ ih
    | outside ho => exact hout _ _ _ _ ih hk ho

theorem may_of_step (hprog : ∀ r, Obeys P (post r) (V.program r) P.idle)
    {es : List (Event W V)} {σ σ' : System W V} (h : Run start K es σ) {i : ℕ} {op : S.Op}
    {ans : S.Ans op} (hs : Step σ (.act i op ans) σ') : P.may (trail P i es) op := by
  cases hs with
  | act hi _ => exact (run_obeys hprog h hi).1

theorem post_of_step (hprog : ∀ r, Obeys P (post r) (V.program r) P.idle)
    {es : List (Event W V)} {σ σ' : System W V} (h : Run start K es σ) {i : ℕ} {r : V.Request}
    {reply : V.Reply} (hs : Step σ (.finish i r reply) σ') : post r reply (trail P i es) := by
  cases hs with
  | finish hi => exact run_obeys hprog h hi

theorem run_event {es later earlier : List (Event W V)} {e : Event W V} {σ : System W V}
    (h : Run start K es σ) (hes : es = later ++ e::earlier) :
    ∃ τ τ', Run start K earlier τ ∧ K earlier τ.shared e ∧ Step τ e τ' := by
  induction h generalizing later with
  | start => simp at hes
  | @step es σ σ' e' hr hk hs ih =>
    cases later with
    | nil =>
      obtain ⟨rfl, rfl⟩ := List.cons.inj hes
      exact ⟨σ, σ', hr, hk, hs⟩
    | cons first later => exact ih (List.cons.inj hes).2

theorem run_prefix {later earlier : List (Event W V)} {σ : System W V}
    (h : Run start K (later ++ earlier) σ) : ∃ τ, Run start K earlier τ := by
  induction later generalizing σ with
  | nil => exact ⟨σ, h⟩
  | cons e later ih =>
    cases h with
    | step hr _ _ => exact ih hr

def Since (anew : Event W V → Prop) (happens : List (Event W V) → Event W V → Prop) :
    List (Event W V) → Prop
  | [] => False
  | e::es => happens es e ∨ ¬ anew e ∧ Since anew happens es

/-- Where the operation and its answer determine the next state, the events of
a run determine where it leads. -/
theorem step_unique (hdet : ∀ i σ op ans σ₁ σ₂, W.Performs i σ op ans σ₁ →
      W.Performs i σ op ans σ₂ → σ₁ = σ₂) {σ τ τ' : System W V} {e : Event W V}
    (h : Step σ e τ) (h' : Step σ e τ') : τ = τ' := by
  cases h with
  | spawn request _ =>
    cases h'
    rfl
  | act hi hp =>
    cases h' with
    | act hi' hp' =>
      rw [hi] at hi'
      cases hi'
      rw [hdet _ _ _ _ _ _ hp hp']
  | finish _ =>
    cases h'
    rfl
  | drop _ _ =>
    cases h'
    rfl
  | outside ho =>
    cases h' with
    | outside ho' => rw [Option.some.inj (ho.symm.trans ho')]

theorem run_unique {K' : List (Event W V) → W.State → Event W V → Prop}
    (hdet : ∀ i σ op ans σ₁ σ₂, W.Performs i σ op ans σ₁ → W.Performs i σ op ans σ₂ → σ₁ = σ₂)
    {es : List (Event W V)} {σ τ : System W V} (h : Run start K es σ) (h' : Run start K' es τ) :
    σ = τ := by
  induction h generalizing τ with
  | start =>
    cases h'
    rfl
  | step _ _ hs ih =>
    cases h' with
    | step hr' _ hs' => exact step_unique hdet hs (ih hr' ▸ hs')

/-- A scheduler's choices. What is not determined by the state is left to a hint. -/
inductive Choice (V : Service S) (Hint Env : Type) where
  | spawn (i : ℕ) (request : V.Request)
  | act (i : ℕ) (hint : Hint)
  | finish (i : ℕ)
  | drop (i : ℕ)
  | outside (e : Env)

end Systems

structure Responder {S : Signature} (W : World S) where
  Hint : Type
  respond : Hint → ℕ → W.State → (op : S.Op) → Option (S.Ans op × W.State)
  sound : ∀ hint i σ op ans σ', respond hint i σ op = some (ans, σ') → W.Performs i σ op ans σ'

section Playing
variable {S : Signature} {W : World S} {V : Service S} (R : Responder W)

def play (σ : System W V) : Choice V R.Hint W.Env → Option (Event W V × System W V)
  | .spawn i request =>
    match σ.tasks i with
    | none => some (.spawn i request, σ.assign i (some (request, V.program request)) σ.shared)
    | some _ => none
  | .act i hint =>
    match σ.tasks i with
    | some (request, .act op next) =>
      match R.respond hint i σ.shared op with
      | some (ans, shared) => some (.act i op ans, σ.assign i (some (request, next ans)) shared)
      | none => none
    | _ => none
  | .finish i =>
    match σ.tasks i with
    | some (request, .done reply) => some (.finish i request reply, σ.assign i none σ.shared)
    | _ => none
  | .drop i =>
    match σ.tasks i with
    | some (_, .act op _) =>
      if S.awaits op then some (.drop i, σ.assign i none (W.release i σ.shared)) else none
    | _ => none
  | .outside e =>
    match W.outside σ.shared e with
    | some shared => some (.outside e, ⟨shared, σ.tasks⟩)
    | none => none

theorem play_step {σ σ' : System W V} {c : Choice V R.Hint W.Env} {e : Event W V}
    (h : play R σ c = some (e, σ')) : Step σ e σ' := by
  cases c with
  | spawn i request =>
    cases hi : σ.tasks i with
    | none =>
      simp only [play, hi, Option.some.injEq, Prod.mk.injEq] at h
      exact h.1 ▸ h.2 ▸ Step.spawn request hi
    | some task => simp [play, hi] at h
  | act i hint =>
    simp only [play] at h
    split at h
    · rename_i hi
      split at h
      · rename_i hr
        simp only [Option.some.injEq, Prod.mk.injEq] at h
        exact h.1 ▸ h.2 ▸ Step.act hi (R.sound _ _ _ _ _ _ hr)
      · cases h
    · cases h
  | finish i =>
    simp only [play] at h
    split at h
    · rename_i hi
      simp only [Option.some.injEq, Prod.mk.injEq] at h
      exact h.1 ▸ h.2 ▸ Step.finish hi
    · cases h
  | drop i =>
    simp only [play] at h
    split at h
    · rename_i hi
      split_ifs at h with hw
      simp only [Option.some.injEq, Prod.mk.injEq] at h
      exact h.1 ▸ h.2 ▸ Step.drop hi hw
    · cases h
  | outside e =>
    simp only [play] at h
    split at h
    · rename_i ho
      simp only [Option.some.injEq, Prod.mk.injEq] at h
      exact h.1 ▸ h.2 ▸ Step.outside ho
    · cases h

def playAll (test : List (Event W V) → W.State → Event W V → Bool) :
    List (Choice V R.Hint W.Env) → List (Event W V) → System W V →
      Option (List (Event W V) × System W V)
  | [], es, σ => some (es, σ)
  | c::cs, es, σ =>
    match play R σ c with
    | some (e, σ') => if test es σ.shared e then playAll test cs (e::es) σ' else none
    | none => none

theorem playAll_run {start : W.State} {test : List (Event W V) → W.State → Event W V → Bool}
    (cs : List (Choice V R.Hint W.Env)) {es es' : List (Event W V)} {σ σ' : System W V}
    (hr : Run start (fun es σ e => test es σ e = true) es σ)
    (h : playAll R test cs es σ = some (es', σ')) :
    Run start (fun es σ e => test es σ e = true) es' σ' := by
  induction cs generalizing es σ with
  | nil =>
    simp only [playAll, Option.some.injEq, Prod.mk.injEq] at h
    exact h.1 ▸ h.2 ▸ hr
  | cons c cs ih =>
    rw [playAll] at h
    split at h
    · rename_i hp
      split_ifs at h with ht
      exact ih (Run.step hr ht (play_step R hp)) h
    · cases h

/-- A run in which choices are played from the start and a test succeeds at the end. -/
theorem playAll_reaches {start : W.State} {test : List (Event W V) → W.State → Event W V → Bool}
    (cs : List (Choice V R.Hint W.Env)) {goal : List (Event W V) → System W V → Bool}
    (h : (playAll R test cs [] ⟨start, fun _ => none⟩).any (fun out => goal out.1 out.2) = true) :
    ∃ es σ, Run start (fun es σ e => test es σ e = true) es σ ∧ goal es σ = true := by
  rw [Option.any_eq_true] at h
  obtain ⟨⟨es, σ⟩, hplay, hgoal⟩ := h
  exact ⟨es, σ, playAll_run R cs Run.start hplay, hgoal⟩

end Playing

end Foundation.AsyncPrograms
