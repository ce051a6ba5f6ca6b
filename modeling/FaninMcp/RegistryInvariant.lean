import FaninMcp.RegistryObeys

/-!
# The invariant of the registry

The double-checked lock around a connection: a server is seen absent behind its
guard, and as only the holder of the guard inserts, it stays absent until the
guard is left. The invariant relates what each task knows from its own
operations to the shared state.
-/

set_option autoImplicit false

namespace FaninMcp.RegistryInvariant
open Foundation.RustText Foundation.JsonText Foundation.AsyncPrograms FaninMcp.ConfigModel
  FaninMcp.ErrorModel FaninMcp.RegistryModel FaninMcp.RegistryWorld FaninMcp.RegistryProtocol
  FaninMcp.RegistryObeys

theorem guarding_iff {φ : Trail} {server : Text} : φ.guarding server = true ↔
    ∃ guard, φ.named = some (server, guard) ∧ Lock.init guard ∈ φ.locks := by
  rw [Trail.guarding]
  cases φ.named with
  | none => simp
  | some found =>
    obtain ⟨other, guard⟩ := found
    simp [and_assoc]

theorem guarding_server {φ : Trail} {server other : Text} (h : φ.guarding server = true)
    (ho : φ.guarding other = true) : server = other := by
  obtain ⟨_, hn, _⟩ := guarding_iff.mp h
  obtain ⟨_, hn', _⟩ := guarding_iff.mp ho
  rw [hn, Option.some.injEq, Prod.mk.injEq] at hn'
  exact hn'.1

section Frames
variable {i : ℕ} {σ σ' : Shared} {op : Op} {ans : Ans op} {φ : Trail}

def isLocking : Op → Bool
  | .acquire _ | .release _ | .abandon => true
  | _ => false

theorem isLocking_cases (h : isLocking op = true) :
    (∃ lock, op = .acquire lock) ∨ (∃ lock, op = .release lock) ∨ op = .abandon := by
  cases op <;> simp_all [isLocking]

theorem holders_frame (hop : isLocking op = false) : (effect i σ op ans).holders = σ.holders := by
  cases op <;> first | rfl | (cases ans <;> rfl) | cases hop

theorem locks_frame (hop : isLocking op = false) : (after φ op ans).locks = φ.locks := by
  cases op <;> first | rfl | (cases ans <;> rfl) | cases hop

theorem initGuards_kept (h : Answers i σ op ans) {server : Text} {guard : ℕ}
    (hg : σ.initGuards server = some guard) :
    (effect i σ op ans).initGuards server = some guard := by
  cases op <;> first | exact hg | (cases ans <;> exact hg) | skip
  case guardEntry other =>
    by_cases ho : server = other
    · subst ho
      have hans : ans = guard := by simpa [Answers, hg] using h
      simp [effect, Shared.nameGuard, hans]
    · simpa [effect, Shared.nameGuard, ho] using hg

theorem entries_frame (i : ℕ) (σ : Shared) (op : Op) (ans : Ans op) :
    (effect i σ op ans).entries = σ.entries ∨ ∃ server entry, op = .entriesInsert server entry ∧
      (effect i σ op ans).entries = Function.update σ.entries server (some entry) := by
  cases op <;> first
    | exact Or.inl rfl
    | (cases ans <;> exact Or.inl rfl)
    | exact Or.inr ⟨_, _, rfl, rfl⟩

theorem named_after (hm : may φ op) {server : Text} {guard : ℕ}
    (h : (after φ op ans).named = some (server, guard)) (ha : Answers i σ op ans)
    (hφ : φ.named = some (server, guard) → σ.initGuards server = some guard) :
    (effect i σ op ans).initGuards server = some guard := by
  cases op <;> first
    | exact initGuards_kept ha (hφ h)
    | (cases ans <;> exact initGuards_kept ha (hφ h))
    | cases h
  simp [effect, Shared.nameGuard]

theorem absent_after (ha : Answers i σ op ans) {server : Text}
    (h : (after φ op ans).absent = some server) :
    φ.absent = some server ∨ φ.guarding server = true ∧ σ.entries server = none := by
  cases op <;> first
    | exact Or.inl h
    | (cases ans <;> exact Or.inl h)
    | cases h
    | skip
  case release lock =>
    simp only [after, Trail.leave] at h
    split_ifs at h
    exact Or.inl h
  case entriesGet other =>
    cases ans with
    | some entry => exact Or.inl h
    | none =>
      simp only [after] at h
      split_ifs at h with hg
      · cases h
        exact Or.inr ⟨hg, ha.symm⟩
      · exact Or.inl h

theorem guarding_after (hm : may φ op) {server : Text} (hg : φ.guarding server = true)
    (h : (after φ op ans).absent = some server) : (after φ op ans).guarding server = true := by
  obtain ⟨guard, hnamed, hlock⟩ := guarding_iff.mp hg
  cases op <;> first
    | exact hg
    | (cases ans <;> exact hg)
    | cases h
    | skip
  case acquire lock => exact guarding_iff.mpr ⟨guard, hnamed, List.mem_cons_of_mem _ hlock⟩
  case release lock =>
    simp only [after, Trail.leave] at h
    split_ifs at h with hi
    refine guarding_iff.mpr ⟨guard, hnamed, ?_⟩
    have hne : Lock.init guard ≠ lock := by
      rintro rfl
      exact hi rfl
    simpa [after, Trail.leave, hne] using hlock
  case guardEntry other => exact absurd (h.symm.trans hm.2) (by simp)

end Frames

/-- What every task knows from its own operations agrees with the shared state. -/
structure Consistent (φ : ℕ → Trail) (σ : Shared) : Prop where
  held : ∀ i lock, i ∈ σ.holders lock ↔ lock ∈ (φ i).locks
  exclusive : ∀ guard i j, i ∈ σ.holders (.init guard) → j ∈ σ.holders (.init guard) → i = j
  named : ∀ i server guard, (φ i).named = some (server, guard) → σ.initGuards server = some guard
  absent : ∀ i server, (φ i).absent = some server →
    (φ i).guarding server = true ∧ σ.entries server = none
  attempt : ∀ i server, (φ i).attempt = some server → (φ i).absent = some server
  got : ∀ i entry, (φ i).got = some entry → σ.entries entry.server = some ⟨entry, rfl⟩

section Step
variable {φ : ℕ → Trail} {σ : Shared} {i : ℕ} {op : Op} {ans : Ans op}

theorem guarding_unique (h : Consistent φ σ) {j : ℕ} {server : Text}
    (hi : (φ i).guarding server = true) (hj : (φ j).guarding server = true) : i = j := by
  obtain ⟨guard, hnamed, hlock⟩ := guarding_iff.mp hi
  obtain ⟨guard', hnamed', hlock'⟩ := guarding_iff.mp hj
  have hsame : guard = guard' := by
    have hg := h.named i server guard hnamed
    rw [h.named j server guard' hnamed', Option.some.injEq] at hg
    exact hg.symm
  subst hsame
  exact h.exclusive guard i j ((h.held i _).mpr hlock) ((h.held j _).mpr hlock')

theorem entries_kept (h : Consistent φ σ) (hm : may (φ i) op) {server : Text}
    {entry : EntryOf server} (he : σ.entries server = some entry) :
    (effect i σ op ans).entries server = some entry := by
  rcases entries_frame i σ op ans with hsame | ⟨other, new, rfl, hins⟩
  · rw [hsame]
    exact he
  · have hne : server ≠ other := by
      rintro rfl
      rw [(h.absent i server hm.2.1).2] at he
      cases he
    rw [hins, Function.update_of_ne hne]
    exact he

theorem held_step (h : Consistent φ σ) (j : ℕ) (lock : Lock) :
    j ∈ (effect i σ op ans).holders lock ↔
      lock ∈ (Function.update φ i (after (φ i) op ans) j).locks := by
  by_cases hj : j = i
  · subst hj
    rw [Function.update_self]
    cases hop : isLocking op with
    | false => rw [holders_frame hop, locks_frame hop, h.held]
    | true =>
      rcases isLocking_cases hop with ⟨got, rfl⟩ | ⟨left, rfl⟩ | rfl
      · by_cases hl : lock = got
        · subst hl
          simp [effect, Shared.lock, after, Trail.enter]
        · simp [effect, Shared.lock, after, Trail.enter, hl, h.held]
      · by_cases hl : lock = left
        · subst hl
          simp [effect, Shared.unlock, after, Trail.leave]
        · simp [effect, Shared.unlock, after, Trail.leave, hl, h.held]
      · simp [effect, Shared.forget, after]
  · rw [Function.update_of_ne hj, ← h.held]
    cases hop : isLocking op with
    | false => rw [holders_frame hop]
    | true =>
      rcases isLocking_cases hop with ⟨got, rfl⟩ | ⟨left, rfl⟩ | rfl
      · by_cases hl : lock = got
        · subst hl
          simp [effect, Shared.lock, hj]
        · simp [effect, Shared.lock, hl]
      · by_cases hl : lock = left
        · subst hl
          simp [effect, Shared.unlock, hj]
        · simp [effect, Shared.unlock, hl]
      · simp [effect, Shared.forget, hj]

theorem exclusive_step (h : Consistent φ σ) (ha : Answers i σ op ans) (guard j k : ℕ)
    (hj : j ∈ (effect i σ op ans).holders (.init guard))
    (hk : k ∈ (effect i σ op ans).holders (.init guard)) : j = k := by
  cases hop : isLocking op with
  | false =>
    rw [holders_frame hop] at hj hk
    exact h.exclusive guard j k hj hk
  | true =>
    rcases isLocking_cases hop with ⟨lock, rfl⟩ | ⟨lock, rfl⟩ | rfl
    · by_cases hl : Lock.init guard = lock
      · subst hl
        have hempty : σ.holders (.init guard) = [] := by
          simpa [Answers, Shared.free, conflicts] using ha
        simp only [effect, Shared.lock, Function.update_self, hempty, List.mem_singleton] at hj hk
        rw [hj, hk]
      · simp only [effect, Shared.lock, Function.update_of_ne hl] at hj hk
        exact h.exclusive guard j k hj hk
    · by_cases hl : Lock.init guard = lock
      · subst hl
        simp only [effect, Shared.unlock, Function.update_self, List.mem_filter] at hj hk
        exact h.exclusive guard j k hj.1 hk.1
      · simp only [effect, Shared.unlock, Function.update_of_ne hl] at hj hk
        exact h.exclusive guard j k hj hk
    · simp only [effect, Shared.forget, List.mem_filter] at hj hk
      exact h.exclusive guard j k hj.1 hk.1

theorem absent_step (h : Consistent φ σ) (hm : may (φ i) op) (ha : Answers i σ op ans) (j : ℕ)
    (server : Text) (hj : (Function.update φ i (after (φ i) op ans) j).absent = some server) :
    (Function.update φ i (after (φ i) op ans) j).guarding server = true ∧
      (effect i σ op ans).entries server = none := by
  by_cases hi : j = i
  · subst hi
    rw [Function.update_self] at hj ⊢
    have hold : (φ j).guarding server = true ∧ σ.entries server = none :=
      (absent_after ha hj).elim (h.absent j server) id
    refine ⟨guarding_after hm hold.1 hj, ?_⟩
    rcases entries_frame j σ op ans with hsame | ⟨_, _, rfl, _⟩
    · rw [hsame]
      exact hold.2
    · cases hj
  · rw [Function.update_of_ne hi] at hj ⊢
    obtain ⟨hguard, hnone⟩ := h.absent j server hj
    refine ⟨hguard, ?_⟩
    rcases entries_frame i σ op ans with hsame | ⟨other, new, rfl, hins⟩
    · rw [hsame]
      exact hnone
    · have hne : server ≠ other := by
        rintro rfl
        exact hi (guarding_unique h hguard (h.absent i server hm.2.1).1)
      rw [hins, Function.update_of_ne hne]
      exact hnone

theorem attempt_after (h : Consistent φ σ) (hm : may (φ i) op) {server : Text}
    (ht : (after (φ i) op ans).attempt = some server) :
    (after (φ i) op ans).absent = some server := by
  cases op <;> first
    | exact h.attempt i server ht
    | (cases ans <;> exact h.attempt i server ht)
    | cases ht
    | skip
  case connectBegin => exact hm.1
  case entriesInsert other entry =>
    exact absurd (hm.2.2.2.symm.trans ht) (by simp)
  case release lock =>
    have hi : isInit lock = false := by
      rw [Bool.eq_false_iff]
      intro hi
      exact absurd ((hm.2 hi).symm.trans ht) (by simp)
    simpa [after, Trail.leave, hi] using h.attempt i server ht
  case entriesGet other =>
    cases ans with
    | some entry => exact h.attempt i server ht
    | none =>
      have habsent := h.attempt i server ht
      by_cases hg : (φ i).guarding other = true
      · rw [after, if_pos hg, guarding_server hg (h.absent i server habsent).1]
      · simpa [after, hg] using habsent

theorem got_after (h : Consistent φ σ) (hm : may (φ i) op) (ha : Answers i σ op ans) {entry : Entry}
    (hg : (after (φ i) op ans).got = some entry) :
    (effect i σ op ans).entries entry.server = some ⟨entry, rfl⟩ := by
  cases op <;> first
    | exact entries_kept h hm (h.got i entry hg)
    | (cases ans <;> exact entries_kept h hm (h.got i entry hg))
    | (cases hg; done)
    | skip
  case entriesInsert server new =>
    obtain ⟨new, rfl⟩ := new
    cases hg
    simp [effect, Shared.insertEntry]
  case entriesGet server =>
    cases ans with
    | none => exact h.got i entry hg
    | some found =>
      obtain ⟨found, rfl⟩ := found
      cases hg
      exact ha.symm

theorem consistent_step (h : Consistent φ σ) (hm : may (φ i) op) (ha : Answers i σ op ans) :
    Consistent (Function.update φ i (after (φ i) op ans)) (effect i σ op ans) := by
  refine ⟨held_step h, exclusive_step h ha, fun j server guard hj => ?_, absent_step h hm ha,
    fun j server hj => ?_, fun j entry hj => ?_⟩
  · rcases eq_or_ne j i with rfl | hi
    · rw [Function.update_self] at hj
      exact named_after hm hj ha (h.named j server guard)
    · rw [Function.update_of_ne hi] at hj
      exact initGuards_kept ha (h.named j server guard hj)
  · rcases eq_or_ne j i with rfl | hi
    · rw [Function.update_self] at hj ⊢
      exact attempt_after h hm hj
    · rw [Function.update_of_ne hi] at hj ⊢
      exact h.attempt j server hj
  · rcases eq_or_ne j i with rfl | hi
    · rw [Function.update_self] at hj
      exact got_after h hm ha hj
    · rw [Function.update_of_ne hi] at hj
      exact entries_kept h hm (h.got j entry hj)

end Step

section Runs
variable {φ : ℕ → Trail} {σ σ' : Shared}

theorem of_reset {β : Type} {f : Trail → Option β} (hf : f {} = none) {i j : ℕ} {b : β}
    (h : f (Function.update φ i {} j) = some b) : f (φ j) = some b := by
  rcases eq_or_ne j i with rfl | hj
  · rw [Function.update_self, hf] at h
    cases h
  · rwa [Function.update_of_ne hj] at h

theorem consistent_reset (h : Consistent φ σ) (i : ℕ) (hl : ∀ lock, i ∉ σ.holders lock) :
    Consistent (Function.update φ i {}) σ := by
  refine ⟨fun j lock => ?_, h.exclusive, fun j server guard hj => ?_, fun j server hj => ?_,
    fun j server hj => ?_, fun j entry hj => ?_⟩
  all_goals rcases eq_or_ne j i with rfl | hi
  · simpa using hl lock
  · simpa [hi] using h.held j lock
  · simp at hj
  · exact h.named j server guard (by simpa [hi] using hj)
  · simp at hj
  · simpa [hi] using h.absent j server (by simpa [hi] using hj)
  · simp at hj
  · simpa [hi] using h.attempt j server (by simpa [hi] using hj)
  · simp at hj
  · exact h.got j entry (by simpa [hi] using hj)

theorem consistent_congr (h : Consistent φ σ) (hh : σ'.holders = σ.holders)
    (hg : σ'.initGuards = σ.initGuards) (he : σ'.entries = σ.entries) : Consistent φ σ' := by
  refine ⟨?_, ?_, ?_, ?_, h.attempt, ?_⟩
  · rw [hh]
    exact h.held
  · rw [hh]
    exact h.exclusive
  · rw [hg]
    exact h.named
  · rw [he]
    exact h.absent
  · rw [he]
    exact h.got

theorem consistent_drop (h : Consistent φ σ) (i : ℕ) :
    Consistent (Function.update φ i {}) (σ.forget i) :=
  consistent_step h (show may (φ i) .abandon from trivial) (show Answers i σ .abandon () from trivial)

theorem outside_frame {e : Outside} (h : σ.outside e = some σ') :
    σ'.holders = σ.holders ∧ σ'.initGuards = σ.initGuards ∧ σ'.entries = σ.entries ∧
      σ'.guards = σ.guards := by
  cases e <;> simp only [Shared.outside] at h
  case change | drift =>
    cases h
    exact ⟨rfl, rfl, rfl, rfl⟩
  case handled =>
    split_ifs at h
    cases h
    exact ⟨rfl, rfl, rfl, rfl⟩
  case snapshot =>
    split at h
    · cases h
      exact ⟨rfl, rfl, rfl, rfl⟩
    · cases h

theorem consistent_initial (tools : Entry → List Tool) :
    Consistent (fun _ => {}) (Shared.initial tools) := by
  refine ⟨?_, ?_, ?_, ?_, ?_, ?_⟩ <;> simp [Shared.initial]

variable {V : Service registryOps} {post : V.Request → V.Reply → Trail → Prop}
  {K : List (Event registryWorld V) → Shared → Event registryWorld V → Prop}

theorem run_consistent (hprog : ∀ r, Obeys registryProtocol (post r) (V.program r) {})
    (hclean : ∀ r a φ, post r a φ → Clean φ) {tools : Entry → List Tool}
    {es : List (Event registryWorld V)} {τ : System registryWorld V}
    (h : Run (Shared.initial tools) K es τ) :
    Consistent (fun i => trail registryProtocol i es) τ.shared := by
  refine run_phases (P := registryProtocol) (J := Consistent) hprog ?_ h
  refine ⟨consistent_initial tools, fun φ σ i hJ hended => ?_,
    fun es σ i op ans σ' hJ _ hm hp => ?_, fun es σ i hJ _ => consistent_drop hJ i,
    fun es σ e σ' hJ _ ho => ?_⟩
  · have hclear : Clean (φ i) := by
      rcases hended with hidle | ⟨r, reply, hpost⟩
      · rw [hidle]
        exact clean_idle
      · exact hclean r reply (φ i) hpost
    refine consistent_reset hJ i fun lock hl => ?_
    have hlock := (hJ.held i lock).mp hl
    rw [hclear.locks] at hlock
    cases hlock
  · rw [hp.2]
    exact consistent_step hJ hm hp.1
  · obtain ⟨hh, hg, he, _⟩ := outside_frame ho
    exact consistent_congr hJ hh hg he

end Runs

end FaninMcp.RegistryInvariant
