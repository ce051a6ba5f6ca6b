import FaninMcp.CancellationSafety

/-!
# Where entries and lists come from

A connection is served under a new serial, built by the task that is serving it
and inserted by the task that built it, so nobody else works on an entry before
it is in the map. A list comes from a snapshot of the upstream, and goes from
the reply to the task and from the task to the cache.
-/

set_option autoImplicit false

namespace FaninMcp.EntryLineage
open Foundation.RustText Foundation.JsonText Foundation.AsyncPrograms FaninMcp.ConfigModel
  FaninMcp.ErrorModel FaninMcp.RegistryModel FaninMcp.RegistryWorld FaninMcp.RegistryProtocol
  FaninMcp.RegistryObeys FaninMcp.RegistryInvariant FaninMcp.SingleFlight
  FaninMcp.CancellationSafety

section Steps
variable {i j : ℕ} {σ : Shared} {op : Op} {ans : Ans op} {φ : ℕ → Trail} {entry : Entry}

theorem serving_after {ψ : Trail} (ha : Answers i σ op ans)
    (h : (after ψ op ans).serving = some entry) : ψ.serving = some entry ∨
      entry.serial = σ.serials ∧ (effect i σ op ans).serials = σ.serials + 1 ∧
        ¬ Trail.Asking (after ψ op ans) entry := by
  cases op <;> first
    | exact Or.inl h
    | cases h
    | (cases ans <;> exact Or.inl h)
    | skip
  case serve server =>
    cases ans with
    | error _ => exact Or.inl h
    | ok new =>
      cases h
      exact Or.inr ⟨ha, rfl, by simp [after, Trail.Asking]⟩

theorem built_after {ψ : Trail} (hm : may ψ op) (h : (after ψ op ans).built = some entry) :
    ψ.built = some entry ∨ ψ.serving = some entry ∧
      ((effect i σ op ans).cached entry).isSome = true := by
  cases op <;> first
    | exact Or.inl h
    | (cases ans <;> exact Or.inl h)
    | skip
  case entriesInsert | abandon => cases h
  case newEntry new tools =>
    cases h
    exact Or.inr ⟨hm.1, by simp [effect, Shared.install]⟩

theorem attempt_while_serving {ψ : Trail} (hm : may ψ op)
    (h : (after ψ op ans).serving = some entry)
    (hold : ψ.serving = some entry → ψ.attempt.isSome = true) :
    (after ψ op ans).attempt.isSome = true := by
  cases op <;> first
    | exact hold h
    | rfl
    | cases h
    | (cases ans <;> exact hold h)
    | skip
  case serve server =>
    have hattempt : ψ.attempt.isSome = true := by rw [show ψ.attempt = some server from hm]; rfl
    cases ans <;> exact hattempt

theorem refetch_after {ψ : Trail} (hm : may ψ op) (h : (after ψ op ans).refetch = some entry) :
    ψ.refetch = some entry ∨ op = .swapDirty entry ∧ ψ.got = some entry ∧
      ¬ Trail.Asking (after ψ op ans) entry := by
  cases op <;> first
    | exact Or.inl h
    | (cases ans <;> exact Or.inl h)
    | skip
  case swapDirty other =>
    cases ans with
    | false => exact Or.inl h
    | true =>
      cases h
      exact Or.inr ⟨rfl, hm.1, by simp [after, Trail.Asking]⟩
  case storeDirty | writeTools | abandon => cases h

theorem serials_after : σ.serials ≤ (effect i σ op ans).serials := by
  cases op <;> first
    | exact le_refl _
    | (cases ans <;> first | exact le_refl _ | exact Nat.le_succ _)

/-- A list, once cached, is only replaced, as long as no connection is served
under the same serial. -/
theorem cached_kept (ha : Answers i σ op ans) (hserial : entry.serial < σ.serials)
    (h : (σ.cached entry).isSome = true) : ((effect i σ op ans).cached entry).isSome = true := by
  have hinstall : ∀ other tools, ((σ.install other tools).cached entry).isSome = true := by
    intro other tools
    by_cases ho : entry = other
    · simp [Shared.install, ho]
    · simpa [Shared.install, ho] using h
  cases op <;> first
    | exact h
    | exact hinstall _ _
    | (cases ans <;> exact h)
    | skip
  case serve server =>
    cases ans with
    | error _ => exact h
    | ok new =>
      have hne : entry ≠ new.1 := by
        rintro rfl
        exact absurd ha (ne_of_lt hserial)
      simpa [effect, Shared.open, hne] using h

end Steps

/-- Connections are told apart by their serials, and nobody but the task that
connects touches one before it is in the map. -/
structure Lineage (φ : ℕ → Trail) (σ : Shared) : Prop where
  serving : ∀ i entry, (φ i).serving = some entry →
    entry.serial < σ.serials ∧ (φ i).attempt.isSome = true
  built : ∀ i entry, (φ i).built = some entry →
    entry.serial < σ.serials ∧ (σ.cached entry).isSome = true
  inserted : ∀ entry, σ.entries entry.server = some ⟨entry, rfl⟩ →
    entry.serial < σ.serials ∧ (σ.cached entry).isSome = true
  alone : ∀ i j entry, (φ i).serving = some entry →
    (φ j).serving = some entry ∨ (φ j).built = some entry → i = j
  unseen : ∀ i entry, (φ i).serving = some entry →
    σ.entries entry.server ≠ some ⟨entry, rfl⟩
  owed : ∀ i entry, (φ i).refetch = some entry → σ.entries entry.server = some ⟨entry, rfl⟩

section Preservation
variable {i : ℕ} {σ : Shared} {op : Op} {ans : Ans op} {φ : ℕ → Trail}

theorem serving_step (ha : Answers i σ op ans) {j : ℕ} {entry : Entry}
    (h : (Function.update φ i (after (φ i) op ans) j).serving = some entry) :
    (φ j).serving = some entry ∨ j = i ∧ entry.serial = σ.serials ∧
      (effect i σ op ans).serials = σ.serials + 1 ∧ ¬ Trail.Asking (after (φ i) op ans) entry := by
  rcases eq_or_ne j i with rfl | hj
  · rw [Function.update_self] at h
    exact (serving_after ha h).imp_right fun hnew => ⟨rfl, hnew⟩
  · rw [Function.update_of_ne hj] at h
    exact Or.inl h

theorem built_step (hm : may (φ i) op) {j : ℕ} {entry : Entry}
    (h : (Function.update φ i (after (φ i) op ans) j).built = some entry) :
    (φ j).built = some entry ∨ (φ j).serving = some entry ∧
      ((effect i σ op ans).cached entry).isSome = true := by
  rcases eq_or_ne j i with rfl | hj
  · rw [Function.update_self] at h
    exact built_after hm h
  · rw [Function.update_of_ne hj] at h
    exact Or.inl h

theorem entries_step (hm : may (φ i) op) {entry : Entry}
    (h : (effect i σ op ans).entries entry.server = some ⟨entry, rfl⟩) :
    σ.entries entry.server = some ⟨entry, rfl⟩ ∨
      (φ i).built = some entry ∧ (φ i).attempt = none := by
  rcases entries_frame i σ op ans with hsame | ⟨server, new, rfl, hins⟩
  · rw [hsame] at h
    exact Or.inl h
  · rw [hins] at h
    by_cases hs : entry.server = server
    · subst hs
      rw [Function.update_self, Option.some.injEq] at h
      subst h
      exact Or.inr ⟨hm.2.2.1, hm.2.2.2⟩
    · rw [Function.update_of_ne hs] at h
      exact Or.inl h

theorem lineage_serving (h : Lineage φ σ) (hm : may (φ i) op) (ha : Answers i σ op ans) (j : ℕ)
    (entry : Entry) (hj : (Function.update φ i (after (φ i) op ans) j).serving = some entry) :
    entry.serial < (effect i σ op ans).serials ∧
      (Function.update φ i (after (φ i) op ans) j).attempt.isSome = true := by
  constructor
  · rcases serving_step ha hj with hold | ⟨_, hserial, hnext, _⟩
    · exact lt_of_lt_of_le (h.serving j entry hold).1 serials_after
    · omega
  · rcases eq_or_ne j i with rfl | hi
    · rw [Function.update_self] at hj ⊢
      exact attempt_while_serving hm hj fun hold => (h.serving j entry hold).2
    · rw [Function.update_of_ne hi] at hj ⊢
      exact (h.serving j entry hj).2

theorem lineage_built (h : Lineage φ σ) (hm : may (φ i) op) (ha : Answers i σ op ans) (j : ℕ)
    (entry : Entry) (hj : (Function.update φ i (after (φ i) op ans) j).built = some entry) :
    entry.serial < (effect i σ op ans).serials ∧
      ((effect i σ op ans).cached entry).isSome = true := by
  rcases built_step (σ := σ) hm hj with hold | ⟨hserving, hcached⟩
  · obtain ⟨hserial, hcached⟩ := h.built j entry hold
    exact ⟨lt_of_lt_of_le hserial serials_after, cached_kept ha hserial hcached⟩
  · exact ⟨lt_of_lt_of_le (h.serving j entry hserving).1 serials_after, hcached⟩

theorem lineage_alone (h : Lineage φ σ) (hm : may (φ i) op) (ha : Answers i σ op ans) (j k : ℕ)
    (entry : Entry) (hj : (Function.update φ i (after (φ i) op ans) j).serving = some entry)
    (hk : (Function.update φ i (after (φ i) op ans) k).serving = some entry ∨
      (Function.update φ i (after (φ i) op ans) k).built = some entry) : j = k := by
  have hkold : (φ k).serving = some entry ∨ (φ k).built = some entry ∨
      k = i ∧ entry.serial = σ.serials := by
    rcases hk with hk | hk
    · exact (serving_step ha hk).imp_right fun hnew => Or.inr ⟨hnew.1, hnew.2.1⟩
    · exact (built_step (σ := σ) hm hk).elim (fun hold => Or.inr (Or.inl hold))
        fun hnew => Or.inl hnew.1
  rcases serving_step ha hj with hjold | ⟨rfl, hserial, _⟩
  · rcases hkold with hold | hold | ⟨_, hserial⟩
    · exact h.alone j k entry hjold (Or.inl hold)
    · exact h.alone j k entry hjold (Or.inr hold)
    · exact absurd hserial (ne_of_lt (h.serving j entry hjold).1)
  · rcases hkold with hold | hold | ⟨hki, _⟩
    · exact absurd hserial (ne_of_lt (h.serving k entry hold).1)
    · exact absurd hserial (ne_of_lt (h.built k entry hold).1)
    · exact hki.symm

theorem lineage_unseen (h : Lineage φ σ) (hm : may (φ i) op) (ha : Answers i σ op ans) (j : ℕ)
    (entry : Entry) (hj : (Function.update φ i (after (φ i) op ans) j).serving = some entry) :
    (effect i σ op ans).entries entry.server ≠ some ⟨entry, rfl⟩ := by
  intro hin
  rcases serving_step ha hj with hold | ⟨_, hserial, _⟩
  · rcases entries_step hm hin with hthere | ⟨hbuilt, hended⟩
    · exact h.unseen j entry hold hthere
    · obtain rfl := h.alone j i entry hold (Or.inr hbuilt)
      have hattempt := (h.serving j entry hold).2
      rw [hended] at hattempt
      cases hattempt
  · rcases entries_step hm hin with hthere | ⟨hbuilt, _⟩
    · exact absurd hserial (ne_of_lt (h.inserted entry hthere).1)
    · exact absurd hserial (ne_of_lt (h.built i entry hbuilt).1)

theorem lineage_owed (h : Lineage φ σ) (hc : Consistent φ σ) (hm : may (φ i) op) (j : ℕ)
    (entry : Entry) (hj : (Function.update φ i (after (φ i) op ans) j).refetch = some entry) :
    (effect i σ op ans).entries entry.server = some ⟨entry, rfl⟩ := by
  apply entries_kept hc hm
  rcases eq_or_ne j i with rfl | hi
  · rw [Function.update_self] at hj
    rcases refetch_after hm hj with hold | ⟨_, hgot, _⟩
    · exact h.owed j entry hold
    · exact hc.got j entry hgot
  · rw [Function.update_of_ne hi] at hj
    exact h.owed j entry hj

theorem lineage_step (h : Lineage φ σ) (hc : Consistent φ σ) (hm : may (φ i) op)
    (ha : Answers i σ op ans) :
    Lineage (Function.update φ i (after (φ i) op ans)) (effect i σ op ans) := by
  refine ⟨lineage_serving h hm ha, lineage_built h hm ha, fun entry hin => ?_, lineage_alone h hm ha,
    lineage_unseen h hm ha, lineage_owed h hc hm⟩
  have hknown : entry.serial < σ.serials ∧ (σ.cached entry).isSome = true :=
    (entries_step hm hin).elim (h.inserted entry) fun hnew => h.built i entry hnew.1
  exact ⟨lt_of_lt_of_le hknown.1 serials_after, cached_kept ha hknown.1 hknown.2⟩

theorem lineage_initial (tools : Entry → List Tool) :
    Lineage (fun _ => {}) (Shared.initial tools) := by
  refine ⟨?_, ?_, ?_, ?_, ?_, ?_⟩ <;> simp [Shared.initial]

theorem lineage_reset (h : Lineage φ σ) (i : ℕ) : Lineage (Function.update φ i {}) σ := by
  refine ⟨fun j entry hj => ?_, fun j entry hj => h.built j entry (of_reset (f := Trail.built) rfl hj),
    h.inserted, fun j k entry hj hk => h.alone j k entry (of_reset (f := Trail.serving) rfl hj)
      (hk.imp (of_reset (f := Trail.serving) rfl) (of_reset (f := Trail.built) rfl)),
    fun j entry hj => h.unseen j entry (of_reset (f := Trail.serving) rfl hj),
    fun j entry hj => h.owed j entry (of_reset (f := Trail.refetch) rfl hj)⟩
  rcases eq_or_ne j i with rfl | hi
  · simp at hj
  · rw [Function.update_of_ne hi] at hj ⊢
    exact h.serving j entry hj

theorem cached_outside {e : Outside} {σ' : Shared} (ho : σ.outside e = some σ') :
    σ'.cached = σ.cached ∧ σ'.serials = σ.serials := by
  cases e <;> simp only [Shared.outside] at ho
  case change | drift =>
    cases ho
    exact ⟨rfl, rfl⟩
  case handled =>
    split_ifs at ho
    cases ho
    exact ⟨rfl, rfl⟩
  case snapshot =>
    split at ho
    · cases ho
      exact ⟨rfl, rfl⟩
    · cases ho

theorem lineage_outside {e : Outside} {σ' : Shared} (h : Lineage φ σ)
    (ho : σ.outside e = some σ') : Lineage φ σ' := by
  obtain ⟨_, _, hentries, _⟩ := outside_frame ho
  obtain ⟨hcached, hserials⟩ := cached_outside ho
  obtain ⟨serving, built, inserted, alone, unseen, owed⟩ := h
  rw [← hserials] at serving built inserted
  rw [← hcached] at built inserted
  rw [← hentries] at inserted unseen owed
  exact ⟨serving, built, inserted, alone, unseen, owed⟩

theorem run_lineage {config : TomlConfig} {tools : Entry → List Tool}
    {K : List (RegistryEvent config) → Shared → RegistryEvent config → Prop}
    {es : List (RegistryEvent config)} {σ : RegistrySystem config}
    (h : Run (Shared.initial tools) K es σ) :
    Lineage (fun i => trail registryProtocol i es) σ.shared := by
  refine run_phases (P := registryProtocol) (J := Lineage) (obeys_serveCall config) ?_
    (run_strengthen (I := fun es σ => Consistent (fun i => trail registryProtocol i es) σ)
      (fun _ _ hr => registry_consistent hr) h)
  refine ⟨lineage_initial tools, fun φ σ i hJ _ => lineage_reset hJ i,
    fun es σ i op ans σ' hJ hk hm hp => ?_, fun es σ i hJ hk => ?_,
    fun es σ e σ' hJ _ ho => lineage_outside hJ ho⟩
  · rw [hp.2]
    exact lineage_step hJ hk.2 hm hp.1
  · exact lineage_step hJ hk.2 (show may (trail registryProtocol i es) .abandon from trivial)
      (show Answers i σ .abandon () from trivial)

end Preservation

end FaninMcp.EntryLineage
