import FaninMcp.EntryLineage

/-!
# Convergence of the inventory cache

The flag keeps two refetches apart only until the next notification sets it
again. When two of them overlap the one with the older snapshot may install
last, and nothing tells the cache that it is out of date. As long as lists are
installed in the order of their snapshots, a settled cache shows the upstream's
current list.
-/

set_option autoImplicit false

namespace FaninMcp.InventoryConvergence
open Foundation.RustText Foundation.JsonText Foundation.AsyncPrograms FaninMcp.ConfigModel
  FaninMcp.ErrorModel FaninMcp.RegistryModel FaninMcp.RegistryWorld FaninMcp.RegistryProtocol
  FaninMcp.RegistryObeys FaninMcp.RegistryInvariant FaninMcp.SingleFlight
  FaninMcp.CancellationSafety FaninMcp.EntryLineage

section Lists
variable {i j : ℕ} {σ σ' : Shared} {op : Op} {ans : Ans op} {φ : ℕ → Trail} {ψ : Trail}
  {entry : Entry} {l : Listing}

/-- A list the upstream has had: not newer than its present one, and the same if
it is as new. -/
def Genuine (σ : Shared) (entry : Entry) (l : Listing) : Prop :=
  l.revision ≤ (σ.upstream entry).revision ∧
    (l.revision = (σ.upstream entry).revision → l.tools = (σ.upstream entry).tools)

/-- The list a task has been given for the entry, or is about to be given. -/
def Awaited (ψ : Trail) (reply : Option (Entry × Option Listing)) (entry : Entry) (l : Listing) :
    Prop :=
  ψ.fetched = some (entry, l) ∨ ψ.asked = some entry ∧ reply = some (entry, some l)

theorem awaited_asking {reply : Option (Entry × Option Listing)} (h : Awaited ψ reply entry l) :
    Trail.Asking ψ entry :=
  h.elim (fun hf => Or.inr ⟨l, hf⟩) fun ha => Or.inl ha.1

theorem upstream_frame : (effect i σ op ans).upstream = σ.upstream := by
  cases op <;> first | rfl | (cases ans <;> rfl)

theorem inflight_other (hj : j ≠ i) : (effect i σ op ans).inflight j = σ.inflight j := by
  cases op <;> first
    | rfl
    | (cases ans <;> rfl)
    | simp [effect, Shared.await, Shared.forget, hj]

theorem inflight_after (h : (effect i σ op ans).inflight j = some (entry, some l)) :
    σ.inflight j = some (entry, some l) := by
  by_cases hj : j = i
  · subst hj
    cases op <;> first
      | exact h
      | (cases ans <;> exact h)
      | simp [effect, Shared.await, Shared.forget] at h
  · rwa [inflight_other hj] at h

theorem cached_after (hm : may ψ op) (h : (effect i σ op ans).cached entry = some l) :
    σ.cached entry = some l ∨ ψ.fetched = some (entry, l) ∧
      (ψ.serving = some entry ∨ op = .writeTools entry l) := by
  cases op <;> first
    | exact Or.inl h
    | (cases ans <;> exact Or.inl h)
    | skip
  case serve server =>
    cases ans with
    | error _ => exact Or.inl h
    | ok new =>
      by_cases hne : entry = new.1
      · simp [effect, Shared.open, hne] at h
      · simp only [effect, Shared.open, Function.update_of_ne hne] at h
        exact Or.inl h
  case newEntry other tools | writeTools other tools =>
    by_cases hne : entry = other
    · subst hne
      simp only [effect, Shared.install, Function.update_self, Option.some.injEq] at h
      subst h
      first
        | exact Or.inr ⟨hm.2, Or.inl hm.1⟩
        | exact Or.inr ⟨hm.2.1, Or.inr rfl⟩
    · simp only [effect, Shared.install, Function.update_of_ne hne] at h
      exact Or.inl h

theorem awaited_after (hm : may ψ op) (ha : Answers i σ op ans)
    (h : Awaited (after ψ op ans) ((effect i σ op ans).inflight i) entry l) :
    Awaited ψ (σ.inflight i) entry l := by
  cases op <;> first
    | exact h
    | (cases ans <;> exact h)
    | skip
  case serve server =>
    cases ans with
    | error _ => exact h
    | ok _ => simp [Awaited, after] at h
  case swapDirty other =>
    cases ans with
    | false => exact h
    | true => simp [Awaited, after] at h
  case listRequest other => simp [Awaited, after, effect, Shared.await] at h
  case abandon => simp [Awaited, after] at h
  case listReply other =>
    cases ans with
    | error _ =>
      have hf : ψ.fetched = some (entry, l) := by simpa [Awaited, after] using h
      exact Or.inl hf
    | ok tools =>
      have hf : other = entry ∧ tools = l := by simpa [Awaited, after] using h
      obtain ⟨rfl, rfl⟩ := hf
      exact Or.inr ⟨hm, ha⟩

theorem awaited_step (hm : may (φ i) op) (ha : Answers i σ op ans)
    (h : Awaited (Function.update φ i (after (φ i) op ans) j) ((effect i σ op ans).inflight j)
      entry l) : Awaited (φ j) (σ.inflight j) entry l := by
  rcases eq_or_ne j i with rfl | hj
  · rw [Function.update_self] at h
    exact awaited_after hm ha h
  · rwa [Function.update_of_ne hj, inflight_other hj] at h

structure Shown (φ : ℕ → Trail) (σ : Shared) : Prop where
  cached : ∀ entry l, σ.cached entry = some l → Genuine σ entry l
  inflight : ∀ i entry l, σ.inflight i = some (entry, some l) → Genuine σ entry l
  fetched : ∀ i entry l, (φ i).fetched = some (entry, l) → Genuine σ entry l

theorem shown_awaited (h : Shown φ σ) (ha : Awaited (φ i) (σ.inflight i) entry l) :
    Genuine σ entry l :=
  ha.elim (h.fetched i entry l) fun hr => h.inflight i entry l hr.2

theorem shown_step (h : Shown φ σ) (hm : may (φ i) op) (ha : Answers i σ op ans) :
    Shown (Function.update φ i (after (φ i) op ans)) (effect i σ op ans) := by
  have hsame : ∀ entry l, Genuine σ entry l → Genuine (effect i σ op ans) entry l := by
    intro entry l hg
    rwa [Genuine, upstream_frame]
  refine ⟨fun entry l hc => hsame entry l ?_, fun j entry l hr => hsame entry l ?_,
    fun j entry l hf => hsame entry l ?_⟩
  · exact (cached_after hm hc).elim (h.cached entry l) fun hf => h.fetched i entry l hf.1
  · exact h.inflight j entry l (inflight_after hr)
  · exact shown_awaited h (awaited_step hm ha (Or.inl hf))

end Lists

section Coverage
variable {i j : ℕ} {σ σ' : Shared} {op : Op} {ans : Ans op} {φ : ℕ → Trail} {ψ : Trail}
  {entry : Entry} {l : Listing}

def Flagged (σ : Shared) (entry : Entry) : Prop :=
  0 < (σ.upstream entry).pending ∨ σ.dirty entry = true

/-- The task is refetching, and whatever it is given is the present list. -/
def Current (φ : ℕ → Trail) (σ : Shared) (i : ℕ) (entry : Entry) : Prop :=
  (φ i).refetch = some entry ∧
    ∀ l, Awaited (φ i) (σ.inflight i) entry l → l.revision = (σ.upstream entry).revision

/-- An outdated list is known to be so, or about to be replaced. -/
structure Covered (φ : ℕ → Trail) (σ : Shared) : Prop where
  cached : ∀ entry l, σ.cached entry = some l → l.revision = (σ.upstream entry).revision ∨
    Flagged σ entry ∨ ∃ i, Current φ σ i entry
  serving : ∀ i entry l, (φ i).serving = some entry → Awaited (φ i) (σ.inflight i) entry l →
    l.revision = (σ.upstream entry).revision ∨ Flagged σ entry

/-- The flag is cleared by a task that goes on to refetch, and on a connection
that has no list yet. -/
theorem dirty_after (ha : Answers i σ op ans) (h : σ.dirty entry = true) :
    (effect i σ op ans).dirty entry = true ∨
      op = .swapDirty entry ∧ (after ψ op ans).refetch = some entry ∧
        ¬ Trail.Asking (after ψ op ans) entry ∨
      entry.serial = σ.serials ∧ (effect i σ op ans).cached entry = none := by
  cases op <;> first
    | exact Or.inl h
    | (cases ans <;> exact Or.inl h)
    | skip
  case serve server =>
    cases ans with
    | error _ => exact Or.inl h
    | ok new =>
      by_cases hne : entry = new.1
      · subst hne
        exact Or.inr (Or.inr ⟨ha, by simp [effect, Shared.open]⟩)
      · simp [effect, Shared.open, hne, h]
  case swapDirty other =>
    by_cases hne : entry = other
    · subst hne
      obtain rfl : ans = true := ha.trans h
      exact Or.inr (Or.inl ⟨rfl, rfl, by simp [after, Trail.Asking]⟩)
    · simp [effect, Shared.setDirty, hne, h]
  case storeDirty other =>
    by_cases hne : entry = other <;> simp [effect, Shared.setDirty, hne, h]

theorem flagged_step (ha : Answers i σ op ans) (h : Flagged σ entry) :
    Flagged (effect i σ op ans) entry ∨
      Current (Function.update φ i (after (φ i) op ans)) (effect i σ op ans) i entry ∧
        op = .swapDirty entry ∨
      entry.serial = σ.serials ∧ (effect i σ op ans).cached entry = none := by
  rw [Flagged, upstream_frame]
  rcases h with hpending | hdirty
  · exact Or.inl (Or.inl hpending)
  · rcases dirty_after (ψ := φ i) ha hdirty with hkept | ⟨hop, hrefetch, hasking⟩ | hnew
    · exact Or.inl (Or.inr hkept)
    · refine Or.inr (Or.inl ⟨⟨?_, fun l hl => absurd ?_ hasking⟩, hop⟩)
      · rwa [Function.update_self]
      · rw [Function.update_self] at hl
        exact awaited_asking hl
    · exact Or.inr (Or.inr hnew)

theorem refetch_ends (hm : may ψ op) (h : ψ.refetch = some entry) :
    (after ψ op ans).refetch = some entry ∨ op = .abandon ∨ op = .storeDirty entry ∨
      ∃ fresh, op = .writeTools entry fresh ∧ ψ.fetched = some (entry, fresh) := by
  cases op <;> first
    | exact Or.inl h
    | (cases ans <;> exact Or.inl h)
    | skip
  case swapDirty other => exact absurd (hm.2.1.symm.trans h) (by simp)
  case abandon => exact Or.inr (Or.inl rfl)
  case storeDirty other =>
    obtain rfl := Option.some.inj (hm.symm.trans h)
    exact Or.inr (Or.inr (Or.inl rfl))
  case writeTools other fresh =>
    obtain rfl := Option.some.inj (hm.1.symm.trans h)
    exact Or.inr (Or.inr (Or.inr ⟨fresh, rfl, hm.2.1⟩))

theorem current_step (hm : may (φ i) op) (ha : Answers i σ op ans)
    (hkept : op = .abandon → (φ i).refetch = some entry → σ.dirty entry = true)
    (h : Current φ σ j entry) :
    Current (Function.update φ i (after (φ i) op ans)) (effect i σ op ans) j entry ∨
      Flagged (effect i σ op ans) entry ∨
      ∃ fresh, op = .writeTools entry fresh ∧ fresh.revision = (σ.upstream entry).revision := by
  obtain ⟨hrefetch, hcurrent⟩ := h
  have hstill : ∀ l, Awaited (Function.update φ i (after (φ i) op ans) j)
      ((effect i σ op ans).inflight j) entry l →
        l.revision = ((effect i σ op ans).upstream entry).revision := by
    intro l hl
    rw [upstream_frame]
    exact hcurrent l (awaited_step hm ha hl)
  rcases eq_or_ne j i with rfl | hj
  · have hends : (after (φ j) op ans).refetch = some entry ∨ _ := refetch_ends hm hrefetch
    rcases hends with hr | rfl | rfl | ⟨fresh, rfl, hf⟩
    · refine Or.inl ⟨?_, hstill⟩
      rwa [Function.update_self]
    · exact Or.inr (Or.inl (Or.inr (hkept rfl hrefetch)))
    · exact Or.inr (Or.inl (Or.inr (by simp [effect, Shared.setDirty])))
    · exact Or.inr (Or.inr ⟨fresh, rfl, hcurrent fresh (Or.inl hf)⟩)
  · refine Or.inl ⟨?_, hstill⟩
    rwa [Function.update_of_ne hj]

theorem covered_serving (h : Covered φ σ) (hl : Lineage φ σ) (hc : Consistent φ σ)
    (hm : may (φ i) op) (ha : Answers i σ op ans) (j : ℕ) (entry : Entry) (l : Listing)
    (hs : (Function.update φ i (after (φ i) op ans) j).serving = some entry)
    (hw : Awaited (Function.update φ i (after (φ i) op ans) j) ((effect i σ op ans).inflight j)
      entry l) :
    l.revision = ((effect i σ op ans).upstream entry).revision ∨
      Flagged (effect i σ op ans) entry := by
  rcases serving_step ha hs with hold | ⟨rfl, _, _, hasking⟩
  · rcases h.serving j entry l hold (awaited_step hm ha hw) with hrev | hflag
    · rw [upstream_frame]
      exact Or.inl hrev
    · rcases flagged_step (φ := φ) ha hflag with hkept | ⟨_, rfl⟩ | ⟨hserial, _⟩
      · exact Or.inr hkept
      · exact absurd (hc.got i entry hm.1) (hl.unseen j entry hold)
      · exact absurd hserial (ne_of_lt (hl.serving j entry hold).1)
  · rw [Function.update_self] at hw
    exact absurd (awaited_asking hw) hasking

/-- The step that matters is the installation: a list that is not older than
the one it replaces is as good as it. -/
theorem covered_cached (h : Covered φ σ) (hl : Lineage φ σ) (hs : Shown φ σ)
    (hm : may (φ i) op) (ha : Answers i σ op ans)
    (hkept : op = .abandon → ∀ entry, (φ i).refetch = some entry → σ.dirty entry = true)
    (hordered : ∀ entry fresh old, op = .writeTools entry fresh → σ.cached entry = some old →
      old.revision ≤ fresh.revision)
    (entry : Entry) (l : Listing) (hl' : (effect i σ op ans).cached entry = some l) :
    l.revision = ((effect i σ op ans).upstream entry).revision ∨
      Flagged (effect i σ op ans) entry ∨
      ∃ j, Current (Function.update φ i (after (φ i) op ans)) (effect i σ op ans) j entry := by
  have hflagged : Flagged σ entry → Flagged (effect i σ op ans) entry ∨
      ∃ j, Current (Function.update φ i (after (φ i) op ans)) (effect i σ op ans) j entry := by
    intro hflag
    rcases flagged_step (φ := φ) ha hflag with hkept | ⟨hcur, _⟩ | ⟨_, hnone⟩
    · exact Or.inl hkept
    · exact Or.inr ⟨i, hcur⟩
    · exact absurd (hl'.symm.trans hnone) (by simp)
  have hwritten : ∀ fresh, op = .writeTools entry fresh → fresh = l := by
    rintro fresh rfl
    simpa [effect, Shared.install] using hl'
  have hold : ∀ old, σ.cached entry = some old →
      (old.revision = (σ.upstream entry).revision → l.revision = (σ.upstream entry).revision) →
      l.revision = (σ.upstream entry).revision ∨ Flagged (effect i σ op ans) entry ∨
        ∃ j, Current (Function.update φ i (after (φ i) op ans)) (effect i σ op ans) j entry := by
    intro old hcold hrev
    rcases h.cached entry old hcold with hcur | hflag | ⟨j, hj⟩
    · exact Or.inl (hrev hcur)
    · exact Or.inr (hflagged hflag)
    · rcases current_step hm ha (fun hop => hkept hop entry) hj with hcur | hflag | ⟨fresh, hop, hf⟩
      · exact Or.inr (Or.inr ⟨j, hcur⟩)
      · exact Or.inr (Or.inl hflag)
      · exact Or.inl (hwritten fresh hop ▸ hf)
  rw [upstream_frame]
  rcases cached_after hm hl' with hcold | ⟨hf, hserving | hop⟩
  · exact hold l hcold id
  · rcases h.serving i entry l hserving (Or.inl hf) with hrev | hflag
    · exact Or.inl hrev
    · exact Or.inr (hflagged hflag)
  · subst hop
    obtain ⟨old, hcold⟩ := Option.isSome_iff_exists.mp (hl.inserted entry (hl.owed i entry hm.1)).2
    refine hold old hcold fun hrev => ?_
    have hle := hordered entry l old rfl hcold
    have hge := (hs.fetched i entry l hf).1
    omega

theorem covered_step (h : Shown φ σ ∧ Covered φ σ) (hl : Lineage φ σ) (hc : Consistent φ σ)
    (hm : may (φ i) op) (ha : Answers i σ op ans)
    (hkept : op = .abandon → ∀ entry, (φ i).refetch = some entry → σ.dirty entry = true)
    (hordered : ∀ entry fresh old, op = .writeTools entry fresh → σ.cached entry = some old →
      old.revision ≤ fresh.revision) :
    Shown (Function.update φ i (after (φ i) op ans)) (effect i σ op ans) ∧
      Covered (Function.update φ i (after (φ i) op ans)) (effect i σ op ans) :=
  ⟨shown_step h.1 hm ha,
    covered_cached h.2 hl h.1 hm ha hkept hordered, covered_serving h.2 hl hc hm ha⟩

end Coverage

section Outside
variable {j : ℕ} {σ σ' : Shared} {e : Outside} {φ : ℕ → Trail} {ψ : Trail} {entry : Entry}
  {l : Listing}

theorem genuine_outside (ho : σ.outside e = some σ') (h : Genuine σ entry l) :
    Genuine σ' entry l := by
  cases e <;> simp only [Shared.outside] at ho
  case change other tools | drift other tools =>
    cases ho
    by_cases hne : entry = other
    · subst hne
      have hle := h.1
      constructor
      · simp only [Function.update_self]
        omega
      · simp only [Function.update_self]
        omega
    · simpa [Genuine, hne] using h
  case handled other =>
    split_ifs at ho
    cases ho
    by_cases hne : entry = other
    · subst hne
      simpa [Genuine] using h
    · simpa [Genuine, hne] using h
  case snapshot =>
    split at ho
    · cases ho
      exact h
    · cases ho

theorem inflight_outside (ho : σ.outside e = some σ')
    (h : σ'.inflight j = some (entry, some l)) : σ.inflight j = some (entry, some l) ∨
      l = ⟨(σ'.upstream entry).tools, (σ'.upstream entry).revision⟩ := by
  cases e <;> simp only [Shared.outside] at ho
  case change | drift =>
    cases ho
    exact Or.inl h
  case handled =>
    split_ifs at ho
    cases ho
    exact Or.inl h
  case snapshot i =>
    split at ho
    · rename_i asked _
      cases ho
      by_cases hj : j = i
      · subst hj
        simp only [Shared.await, Function.update_self, Option.some.injEq, Prod.mk.injEq] at h
        obtain ⟨rfl, rfl⟩ := h
        exact Or.inr rfl
      · simp only [Shared.await, Function.update_of_ne hj] at h
        exact Or.inl h
    · cases ho

theorem awaited_outside (ho : σ.outside e = some σ') (h : Awaited ψ (σ'.inflight j) entry l) :
    Awaited ψ (σ.inflight j) entry l ∨
      l = ⟨(σ'.upstream entry).tools, (σ'.upstream entry).revision⟩ := by
  rcases h with hf | ⟨hasked, hr⟩
  · exact Or.inl (Or.inl hf)
  · exact (inflight_outside ho hr).imp_left fun hold => Or.inr ⟨hasked, hold⟩

theorem flagged_outside (ho : σ.outside e = some σ') (hdrift : ∀ other tools, e ≠ .drift other tools)
    (entry : Entry) : Flagged σ' entry ∨
      σ'.upstream entry = σ.upstream entry ∧ σ'.dirty entry = σ.dirty entry := by
  cases e <;> simp only [Shared.outside] at ho
  case drift other tools => exact absurd rfl (hdrift other tools)
  case change other tools =>
    cases ho
    by_cases hne : entry = other
    · subst hne
      exact Or.inl (Or.inl (by simp))
    · exact Or.inr ⟨by simp [hne], rfl⟩
  case handled other =>
    split_ifs at ho
    cases ho
    by_cases hne : entry = other
    · subst hne
      exact Or.inl (Or.inr (by simp [Shared.setDirty]))
    · exact Or.inr ⟨by simp [hne], by simp [Shared.setDirty, hne]⟩
  case snapshot =>
    split at ho
    · cases ho
      exact Or.inr ⟨rfl, rfl⟩
    · cases ho

theorem shown_outside (h : Shown φ σ) (ho : σ.outside e = some σ') : Shown φ σ' := by
  refine ⟨fun entry l hc => genuine_outside ho ?_, fun i entry l hr => ?_,
    fun i entry l hf => genuine_outside ho (h.fetched i entry l hf)⟩
  · rw [(cached_outside ho).1] at hc
    exact h.cached entry l hc
  · rcases inflight_outside ho hr with hold | rfl
    · exact genuine_outside ho (h.inflight i entry l hold)
    · exact ⟨le_refl _, fun _ => rfl⟩

theorem covered_outside (h : Covered φ σ) (ho : σ.outside e = some σ')
    (hdrift : ∀ other tools, e ≠ .drift other tools) : Covered φ σ' := by
  refine ⟨fun entry l hc => ?_, fun i entry l hs hw => ?_⟩
  · rcases flagged_outside ho hdrift entry with hflag | ⟨hup, hdirty⟩
    · exact Or.inr (Or.inl hflag)
    · rw [(cached_outside ho).1] at hc
      rw [Flagged, hup, hdirty]
      refine (h.cached entry l hc).imp_right (Or.imp_right ?_)
      rintro ⟨i, hr, hcur⟩
      refine ⟨i, hr, fun new hw => ?_⟩
      rcases awaited_outside ho hw with hold | rfl
      · rw [hup]
        exact hcur new hold
      · rfl
  · rcases flagged_outside ho hdrift entry with hflag | ⟨hup, hdirty⟩
    · exact Or.inr hflag
    · rcases awaited_outside ho hw with hold | rfl
      · rw [Flagged, hup, hdirty]
        exact h.serving i entry l hs hold
      · exact Or.inl rfl

theorem shown_reset (h : Shown φ σ) (i : ℕ) : Shown (Function.update φ i {}) σ := by
  exact ⟨h.cached, h.inflight, fun j entry l hj =>
    h.fetched j entry l (of_reset (f := Trail.fetched) rfl hj)⟩

theorem covered_reset (h : Covered φ σ) (i : ℕ) (hr : (φ i).refetch = none) :
    Covered (Function.update φ i {}) σ := by
  refine ⟨fun entry l hc => ?_, fun j entry l hj hw => ?_⟩
  · refine (h.cached entry l hc).imp_right (Or.imp_right ?_)
    rintro ⟨j, hj⟩
    have hne : j ≠ i := by
      rintro rfl
      exact absurd (hr.symm.trans hj.1) (by simp)
    refine ⟨j, ?_⟩
    rwa [Current, Function.update_of_ne hne]
  · rcases eq_or_ne j i with rfl | hi
    · simp at hj
    · rw [Function.update_of_ne hi] at hj hw
      exact h.serving j entry l hj hw

end Outside

section Runs
variable {config : TomlConfig} {tools : Entry → List Tool} {es : List (RegistryEvent config)}
  {σ : RegistrySystem config}

/-- Every change is announced, a dropped future keeps its signal, and no list is
installed over one with a later snapshot. -/
structure Orderly (es : List (RegistryEvent config)) (σ : Shared) (e : RegistryEvent config) :
    Prop where
  announced : ∀ entry tools, e ≠ .outside (.drift entry tools)
  kept : DropsKeepSignal es σ e
  ordered : ∀ i entry fresh u old, e = .act i (.writeTools entry fresh) u →
    σ.cached entry = some old → old.revision ≤ fresh.revision

/-- Nothing is left to do for an entry: no notification, no flag, no refetch. -/
def Settled (es : List (RegistryEvent config)) (σ : Shared) (entry : Entry) : Prop :=
  (σ.upstream entry).pending = 0 ∧ σ.dirty entry = false ∧ ∀ i, ¬ Owes es i entry

theorem covered_initial : Shown (fun _ => registryProtocol.idle) (Shared.initial tools) ∧
    Covered (fun _ => registryProtocol.idle) (Shared.initial tools) := by
  constructor
  · refine ⟨?_, ?_, ?_⟩ <;> simp [Shared.initial]
  · refine ⟨?_, ?_⟩ <;> simp [Shared.initial]

theorem run_covered (h : Run (Shared.initial tools) Orderly es σ) :
    Shown (fun i => trail registryProtocol i es) σ.shared ∧
      Covered (fun i => trail registryProtocol i es) σ.shared := by
  refine run_phases (P := registryProtocol) (J := fun φ σ => Shown φ σ ∧ Covered φ σ)
    (obeys_serveCall config) ?_
    (run_strengthen (I := fun es σ => Consistent (fun i => trail registryProtocol i es) σ ∧
      Lineage (fun i => trail registryProtocol i es) σ)
      (fun _ _ hr => ⟨registry_consistent hr, run_lineage hr⟩) h)
  refine ⟨covered_initial, fun φ σ i hJ hended => ?_, fun es σ i op ans σ' hJ hk hm hp => ?_,
    fun es σ i hJ hk => ?_, fun es σ e σ' hJ hk ho => ?_⟩
  · have hrefetch : (φ i).refetch = none := by
      rcases hended with hidle | ⟨r, reply, hpost⟩
      · rw [hidle]
      · exact hpost.clean.refetch
    exact ⟨shown_reset hJ.1 i, covered_reset hJ.2 i hrefetch⟩
  · rw [hp.2]
    refine covered_step hJ hk.2.2 hk.2.1 hm hp.1 ?_ ?_
    · rintro rfl entry ho
      exact hk.1.kept i entry rfl ho
    · rintro entry fresh old rfl hcold
      exact hk.1.ordered i entry fresh ans old rfl hcold
  · exact @covered_step i σ .abandon () (fun j => trail registryProtocol j es) hJ hk.2.2 hk.2.1
      trivial trivial (fun _ entry ho => hk.1.kept i entry rfl ho) (fun _ _ _ hop => by cases hop)
  · exact ⟨shown_outside hJ.1 ho,
      covered_outside hJ.2 ho fun other tools he => hk.1.announced other tools (he ▸ rfl)⟩

end Runs

/-- In a run that installs lists in the order of their snapshots, a settled
entry shows the upstream's current list. -/
theorem inventory_converges (config : TomlConfig) (tools : Entry → List Tool)
    {es : List (RegistryEvent config)} {σ : RegistrySystem config}
    (h : Run (Shared.initial tools) Orderly es σ) (entry : Entry)
    (hin : σ.shared.entries entry.server = some ⟨entry, rfl⟩)
    (hset : Settled es σ.shared entry) :
    ∃ l, σ.shared.cached entry = some l ∧ l.tools = (σ.shared.upstream entry).tools := by
  obtain ⟨hs, hcov⟩ := run_covered h
  obtain ⟨l, hcached⟩ := Option.isSome_iff_exists.mp ((run_lineage h).inserted entry hin).2
  refine ⟨l, hcached, (hs.cached entry l hcached).2 ?_⟩
  obtain ⟨hpending, hdirty, howes⟩ := hset
  rcases hcov.cached entry l hcached with hrev | hflag | ⟨i, hr, _⟩
  · exact hrev
  · rcases hflag with hp | hd
    · omega
    · exact absurd (hdirty.symm.trans hd) (by simp)
  · exact absurd hr (howes i)

def Undisturbed {config : TomlConfig} (_ : List (RegistryEvent config)) (_ : Shared)
    (e : RegistryEvent config) : Prop :=
  (∀ entry tools, e ≠ .outside (.drift entry tools)) ∧ ∀ i, ¬ Cancels i e

def undisturbed : RegistryEvent probeConfig → Bool
  | .outside (.drift _ _) | .drop _ | .act _ .abandon _ => false
  | _ => true

theorem undisturbed_sound (es : List (RegistryEvent probeConfig)) (σ : Shared)
    (e : RegistryEvent probeConfig) (h : undisturbed e = true) : Undisturbed es σ e := by
  refine ⟨?_, fun i hc => ?_⟩
  · rintro entry tools rfl
    cases h
  · cases e with
    | act j op ans =>
      cases op <;> cases hc
      cases h
    | drop j => cases h
    | spawn _ _ | finish _ _ _ | outside _ => cases hc

def overtaking : List (Choice (registryService probeConfig) Hint Outside) :=
  notified ++ .spawn 1 (.inventory "s".toList) :: acts probeConfig 1 7 ++ .outside (.snapshot 1) ::
    [.outside (.change probeEntry (probeTools probeEntry)), .outside (.handled probeEntry)] ++
    .spawn 2 (.inventory "s".toList) :: acts probeConfig 2 7 ++ .outside (.snapshot 2) ::
    acts probeConfig 2 8 ++ .finish 2 :: acts probeConfig 1 8 ++ [.finish 1]

/-- The probe's entry is settled, as far as the first three tasks go, and these
are all there are. -/
def settledAt (es : List (RegistryEvent probeConfig)) (σ : Shared) : Bool :=
  (σ.entries "s".toList).map Subtype.val = some probeEntry &&
    (σ.upstream probeEntry).pending = 0 && !σ.dirty probeEntry &&
    (List.range 3).all (fun i => (trail registryProtocol i es).refetch ≠ some probeEntry) &&
    es.all fun e => e.task.all (· < 3)

theorem settledAt_sound {es : List (RegistryEvent probeConfig)} {σ : Shared}
    (h : settledAt es σ = true) :
    σ.entries probeEntry.server = some ⟨probeEntry, rfl⟩ ∧ Settled es σ probeEntry := by
  simp only [settledAt, Bool.and_eq_true, decide_eq_true_eq, Bool.not_eq_true', List.all_eq_true,
    List.mem_range] at h
  obtain ⟨⟨⟨⟨hentry, hpending⟩, hdirty⟩, howes⟩, hfew⟩ := h
  refine ⟨?_, hpending, hdirty, unowed_of_few howes hfew⟩
  obtain ⟨⟨entry, hs⟩, hfound, rfl⟩ := Option.map_eq_some_iff.mp hentry
  exact hfound

theorem overtaking_runs : ∃ es σ, Run (W := registryWorld) (V := registryService probeConfig)
    (Shared.initial probeTools) (fun _ _ e => undisturbed e = true) es σ ∧
      (settledAt es σ.shared &&
        (σ.shared.cached probeEntry).map (·.tools.length) = some 0 &&
        (σ.shared.upstream probeEntry).tools.length = 1) = true :=
  playAll_reaches responder overtaking (by decide)

/-- An older refetch overwrites a newer one, and nothing is left to correct it. -/
theorem inventory_diverges : ∃ (es : List (RegistryEvent probeConfig))
    (σ : RegistrySystem probeConfig), Run (Shared.initial probeTools) Undisturbed es σ ∧
      σ.shared.entries probeEntry.server = some ⟨probeEntry, rfl⟩ ∧
      Settled es σ.shared probeEntry ∧
      ¬ ∃ l, σ.shared.cached probeEntry = some l ∧
        l.tools = (σ.shared.upstream probeEntry).tools := by
  obtain ⟨es, σ, hr, hgoal⟩ := overtaking_runs
  simp only [Bool.and_eq_true, decide_eq_true_eq] at hgoal
  obtain ⟨⟨hset, hcached⟩, hup⟩ := hgoal
  obtain ⟨hin, hset⟩ := settledAt_sound hset
  refine ⟨es, σ, run_weaken undisturbed_sound hr, hin, hset, ?_⟩
  rintro ⟨l, hl, htools⟩
  rw [hl, Option.map_some, Option.some.injEq, htools, hup] at hcached
  cases hcached

def orderly (es : List (RegistryEvent probeConfig)) (σ : Shared) :
    RegistryEvent probeConfig → Bool
  | .outside (.drift _ _) => false
  | .act _ (.writeTools entry fresh) _ =>
    (σ.cached entry).all fun old => old.revision ≤ fresh.revision
  | e => keepsSignal es σ e

theorem orderly_sound (es : List (RegistryEvent probeConfig)) (σ : Shared)
    (e : RegistryEvent probeConfig) (h : orderly es σ e = true) : Orderly es σ e := by
  refine ⟨?_, ?_, ?_⟩
  · rintro entry tools rfl
    cases h
  · apply keepsSignal_sound
    cases e with
    | act j op ans => cases op <;> first | exact h | rfl
    | outside _ => rfl
    | drop _ | spawn _ _ | finish _ _ _ => exact h
  · rintro i entry fresh u old rfl hold
    simpa [orderly, hold] using h

def inOrder : List (Choice (registryService probeConfig) Hint Outside) :=
  notified ++ .spawn 1 (.inventory "s".toList) :: acts probeConfig 1 7 ++ .outside (.snapshot 1) ::
    [.outside (.change probeEntry (probeTools probeEntry)), .outside (.handled probeEntry)] ++
    .spawn 2 (.inventory "s".toList) :: acts probeConfig 2 7 ++ .outside (.snapshot 2) ::
    acts probeConfig 1 8 ++ .finish 1 :: acts probeConfig 2 8 ++ [.finish 2]

theorem inOrder_runs : ∃ es σ, Run (W := registryWorld) (V := registryService probeConfig)
    (Shared.initial probeTools) (fun es σ e => orderly es σ e = true) es σ ∧
      settledAt es σ.shared = true :=
  playAll_reaches responder inOrder (by decide)

theorem inventory_converges_inOrder : ∃ (es : List (RegistryEvent probeConfig))
    (σ : RegistrySystem probeConfig), Run (Shared.initial probeTools) Orderly es σ ∧
      Settled es σ.shared probeEntry ∧ ∃ l, σ.shared.cached probeEntry = some l ∧
        l.tools = (σ.shared.upstream probeEntry).tools := by
  obtain ⟨es, σ, hr, hgoal⟩ := inOrder_runs
  obtain ⟨hin, hset⟩ := settledAt_sound hgoal
  have hrun := run_weaken orderly_sound hr
  exact ⟨es, σ, hrun, hset, inventory_converges probeConfig probeTools hrun probeEntry hin hset⟩

end FaninMcp.InventoryConvergence
