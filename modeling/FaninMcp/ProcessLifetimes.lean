import FaninMcp.ProcessModel
import FaninMcp.EntryLineage
import FaninMcp.PermissionLayer

/-!
# No orphans

Every child that was spawned is guarded by a running attempt or by an entry that
somebody has a handle to, and otherwise its group has been killed, once. What the
registry's map holds is never killed, and dropping the registry kills the rest.
-/

set_option autoImplicit false

namespace FaninMcp.ProcessLifetimes
open Foundation.RustText Foundation.JsonText Foundation.AsyncPrograms Foundation.SharedOwnership
  FaninMcp.ConfigModel FaninMcp.ErrorModel FaninMcp.RegistryModel FaninMcp.RegistryWorld
  FaninMcp.RegistryProtocol FaninMcp.RegistryInvariant FaninMcp.NamespaceAcl FaninMcp.MetaTools
  FaninMcp.MetaAcl FaninMcp.PermissionLayer FaninMcp.EntryLineage FaninMcp.CancellationSafety
  FaninMcp.ProcessModel

/-- The processes agree with the map and with what the tasks are building. An entry
that has only been served is nobody's yet. -/
structure Tended (φ : ℕ → Building) (σ : Shared) (π : Processes) : Prop where
  sound : Sound π
  map : ∀ entry, (.map, entry) ∈ π.handles ↔ σ.entries entry.server = some ⟨entry, rfl⟩
  known : ∀ entry, π.Shared entry ∨ π.content entry ≠ none → entry.serial < σ.serials
  served : ∀ i entry, (φ i).served = some entry →
    entry.serial < σ.serials ∧ ¬ π.Shared entry ∧ π.content entry = none
  alone : ∀ i j entry, (φ i).served = some entry → (φ j).served = some entry → i = j
  built : ∀ i entry, (φ i).built = some entry → (.task i, entry) ∈ π.handles

section Steps
variable {φ : ℕ → Building} {σ : Shared} {π : Processes} {i : ℕ}

theorem tended_initial (tools : Entry → List Tool) :
    Tended (fun _ => {}) (Shared.initial tools) {} := by
  constructor
  case sound => exact sound_empty
  all_goals simp [Shared.initial, Estate.Shared]

/-- The invariant reads only handles and contents of the processes, and only the map
and the serials of the registry. -/
theorem tended_congr {σ' : Shared} {π' : Processes} (h : Tended φ σ π) (hsound : Sound π')
    (hhandles : π'.handles = π.handles) (hcontent : π'.content = π.content)
    (hentries : σ'.entries = σ.entries) (hserials : σ.serials = σ'.serials) : Tended φ σ' π' := by
  have hshared : ∀ entry, π'.Shared entry ↔ π.Shared entry := by
    intro entry
    simp [Estate.Shared, hhandles]
  refine ⟨hsound, ?_, ?_, ?_, h.alone, ?_⟩
  · rw [hhandles, hentries]
    exact h.map
  · intro entry hentry
    rw [hshared, hcontent] at hentry
    exact hserials ▸ h.known entry hentry
  · intro j entry hj
    rw [hshared, hcontent, ← hserials]
    exact h.served j entry hj
  · rw [hhandles]
    exact h.built

theorem of_forgotten {β : Type} {f : Building → Option β} (hf : f {} = none) {j : ℕ} {b : β}
    (h : f (Function.update φ i {} j) = some b) : j ≠ i ∧ f (φ j) = some b := by
  rcases eq_or_ne j i with rfl | hj
  · rw [Function.update_self, hf] at h
    cases h
  · rw [Function.update_of_ne hj] at h
    exact ⟨hj, h⟩

theorem tended_dropTask (h : Tended φ σ π) (i : ℕ) :
    Tended (Function.update φ i {}) σ (dropTask π i) := by
  have hkept : ∀ handle : Holder × Entry, handle ∈ (dropTask π i).handles ↔
      handle ∈ π.handles ∧ handle.1 ≠ .task i := by
    intro handle
    simp [dropTask, Estate.drop, Estate.clear, ofTask]
  have hless : ∀ entry, (dropTask π i).Shared entry → π.Shared entry := by
    rintro entry ⟨holder, hmem⟩
    exact ⟨holder, ((hkept _).mp hmem).1⟩
  refine ⟨sound_drop (sound_clear h.sound i) _, fun entry => ?_,
    fun entry hentry => h.known entry (hentry.imp_left (hless entry)), fun j entry hj => ?_,
    fun j k entry hj hk => ?_, fun j entry hj => ?_⟩
  · rw [hkept, h.map]
    simp
  · obtain ⟨_, hj⟩ := of_forgotten (f := Building.served) rfl hj
    obtain ⟨hserial, hunshared, hempty⟩ := h.served j entry hj
    exact ⟨hserial, fun hs => hunshared (hless entry hs), hempty⟩
  · exact h.alone j k entry (of_forgotten (f := Building.served) rfl hj).2
      (of_forgotten (f := Building.served) rfl hk).2
  · obtain ⟨hne, hj⟩ := of_forgotten (f := Building.built) rfl hj
    exact (hkept _).mpr ⟨h.built j entry hj, by simpa using hne⟩

theorem tended_clear (h : Tended φ σ π) (i : ℕ) : Tended φ σ (π.clear i) :=
  tended_congr h (sound_clear h.sound i) rfl rfl rfl rfl

theorem tended_acquire (h : Tended φ σ π) (i : ℕ) : Tended φ σ (π.acquire i) :=
  tended_congr h (sound_acquire h.sound i) rfl rfl rfl rfl

theorem tended_share (h : Tended φ σ π) {entry : Entry}
    (hin : σ.entries entry.server = some ⟨entry, rfl⟩) (i : ℕ) :
    Tended φ σ (π.share (.task i) entry) := by
  have hold : π.Shared entry := ⟨.map, (h.map entry).mpr hin⟩
  have hshared : ∀ other, (π.share (.task i) entry).Shared other → π.Shared other := by
    rintro other ⟨holder, hmem⟩
    rcases List.mem_cons.mp hmem with heq | hmem
    · cases heq
      exact hold
    · exact ⟨holder, hmem⟩
  refine ⟨sound_share h.sound _ hold, fun other => ?_,
    fun other hother => h.known other (hother.imp_left (hshared other)), fun j other hj => ?_,
    h.alone, fun j other hj => List.mem_cons_of_mem _ (h.built j other hj)⟩
  · rw [← h.map]
    simp [Estate.share]
  · obtain ⟨hserial, hunshared, hempty⟩ := h.served j other hj
    exact ⟨hserial, fun hs => hunshared (hshared other hs), hempty⟩

/-- The map gets a handle to what a task has built, in place of the one it had. -/
theorem tended_insert (h : Tended φ σ π) {server : Text} {entry : EntryOf server}
    (hbuilt : (φ i).built = some entry.1) :
    Tended φ (σ.insertEntry server entry) ((π.drop (mappedFor server)).share .map entry.1) := by
  have hkept : ∀ handle : Holder × Entry, handle ∈ (π.drop (mappedFor server)).handles ↔
      handle ∈ π.handles ∧ ¬ (handle.1 = .map ∧ handle.2.server = server) := by
    intro handle
    simp only [Estate.drop, mappedFor, ofMap, List.mem_filter, Bool.not_eq_true',
      Bool.and_eq_false_imp, decide_eq_true_eq, decide_eq_false_iff_not, not_and]
  have hheld : (.task i, entry.1) ∈ (π.drop (mappedFor server)).handles :=
    (hkept _).mpr ⟨h.built i entry.1 hbuilt, by simp⟩
  have hshared : ∀ other, ((π.drop (mappedFor server)).share .map entry.1).Shared other →
      π.Shared other := by
    rintro other ⟨holder, hmem⟩
    rcases List.mem_cons.mp hmem with heq | hmem
    · cases heq
      exact ⟨_, h.built i entry.1 hbuilt⟩
    · exact ⟨holder, ((hkept _).mp hmem).1⟩
  refine ⟨sound_share (sound_drop h.sound _) _ ⟨_, hheld⟩, fun other => ?_,
    fun other hother => h.known other (hother.imp_left (hshared other)), fun j other hj => ?_,
    h.alone, fun j other hj => ?_⟩
  · obtain ⟨entry, rfl⟩ := entry
    rw [Estate.share, List.mem_cons, hkept, h.map, Shared.insertEntry]
    by_cases hs : other.server = entry.server
    · obtain ⟨_, serial⟩ := other
      obtain rfl : _ = entry.server := hs
      simp [eq_comm]
    · have hne : other ≠ entry := by
        rintro rfl
        exact hs rfl
      simp [hs, hne]
  · obtain ⟨hserial, hunshared, hempty⟩ := h.served j other hj
    exact ⟨hserial, fun hs => hunshared (hshared other hs), hempty⟩
  · exact List.mem_cons_of_mem _ ((hkept _).mpr ⟨h.built j other hj, by simp⟩)

theorem tended_box (h : Tended φ σ π) {entry : Entry} (hserved : (φ i).served = some entry) :
    Tended (Function.update φ i ⟨none, some entry⟩) σ (π.box i entry (.task i)) := by
  obtain ⟨hserial, hunshared, hempty⟩ := h.served i entry hserved
  have hother : ∀ {j other}, (Function.update φ i ⟨none, some entry⟩ j).served = some other →
      j ≠ i ∧ (φ j).served = some other := by
    intro j other hj
    rcases eq_or_ne j i with rfl | hne
    · simp at hj
    · rw [Function.update_of_ne hne] at hj
      exact ⟨hne, hj⟩
  have hshared : ∀ other, other ≠ entry →
      ((π.box i entry (.task i)).Shared other ↔ π.Shared other) := by
    intro other hne
    simp [Estate.Shared, Estate.box, hne]
  refine ⟨sound_box h.sound i _ hunshared hempty, fun other => ?_, fun other hknown => ?_,
    fun j other hj => ?_, fun j k other hj hk => h.alone j k other (hother hj).2 (hother hk).2,
    fun j other hj => ?_⟩
  · rw [← h.map]
    simp [Estate.box]
  · rcases eq_or_ne other entry with rfl | hne
    · exact hserial
    · rw [hshared other hne] at hknown
      exact h.known other (by simpa [Estate.box, hne] using hknown)
  · obtain ⟨hne, hold⟩ := hother hj
    have hdiffer : other ≠ entry := by
      intro heq
      exact hne (h.alone j i other hold (heq ▸ hserved))
    obtain ⟨hlt, hnot, hnone⟩ := h.served j other hold
    rw [hshared other hdiffer]
    exact ⟨hlt, hnot, by simpa [Estate.box, hdiffer] using hnone⟩
  · rcases eq_or_ne j i with rfl | hne
    · rw [Function.update_self] at hj
      cases hj
      exact List.mem_cons_self
    · rw [Function.update_of_ne hne] at hj
      exact List.mem_cons_of_mem _ (h.built j other hj)

theorem tended_serve (h : Tended φ σ π) {server : Text} {entry : EntryOf server}
    (hnew : entry.1.serial = σ.serials) :
    Tended (Function.update φ i { φ i with served := some entry.1 }) (σ.open entry.1) π := by
  have hserved : ∀ {j other}, (Function.update φ i { φ i with served := some entry.1 } j).served =
      some other → (j = i ∧ other = entry.1) ∨ (φ j).served = some other := by
    intro j other hj
    rcases eq_or_ne j i with rfl | hne
    · rw [Function.update_self] at hj
      exact Or.inl ⟨rfl, (Option.some.inj hj).symm⟩
    · rw [Function.update_of_ne hne] at hj
      exact Or.inr hj
  have hgrown : σ.serials < (σ.open entry.1).serials := Nat.lt_succ_self _
  refine ⟨h.sound, h.map, fun other hother => lt_trans (h.known other hother) hgrown,
    fun j other hj => ?_, fun j k other hj hk => ?_, fun j other hj => ?_⟩
  · rcases hserved hj with ⟨rfl, rfl⟩ | hold
    · refine ⟨hnew ▸ hgrown, fun hs => ?_, ?_⟩
      · exact absurd (h.known _ (Or.inl hs)) (by omega)
      · by_contra hne
        exact absurd (h.known _ (Or.inr hne)) (by omega)
    · obtain ⟨hlt, hrest⟩ := h.served j other hold
      exact ⟨lt_trans hlt hgrown, hrest⟩
  · rcases hserved hj with ⟨rfl, rfl⟩ | hjold
    · rcases hserved hk with ⟨rfl, _⟩ | hkold
      · rfl
      · exact absurd (h.served k _ hkold).1 (by omega)
    · rcases hserved hk with ⟨rfl, rfl⟩ | hkold
      · exact absurd (h.served j _ hjold).1 (by omega)
      · exact h.alone j k other hjold hkold
  · rcases eq_or_ne j i with rfl | hne
    · rw [Function.update_self] at hj
      exact h.built j other hj
    · rw [Function.update_of_ne hne] at hj
      exact h.built j other hj

variable {op : Op} {ans : Ans op}

theorem tended_still (h : Tended φ σ π) (hsame : buildAfter (φ i) op ans = φ i)
    (hentries : (effect i σ op ans).entries = σ.entries)
    (hserials : σ.serials = (effect i σ op ans).serials) (htend : tend i π op ans = π) :
    Tended (Function.update φ i (buildAfter (φ i) op ans)) (effect i σ op ans)
      (tend i π op ans) := by
  rw [hsame, Function.update_eq_self, htend]
  exact tended_congr h h.sound rfl rfl hentries hserials

theorem tended_step (h : Tended φ σ π) (hm : mayBuild (φ i) op) (ha : Answers i σ op ans) :
    Tended (Function.update φ i (buildAfter (φ i) op ans)) (effect i σ op ans)
      (tend i π op ans) := by
  cases op <;> first
    | exact tended_still h rfl rfl rfl rfl
    | (cases ans <;> exact tended_still h rfl rfl rfl rfl)
    | skip
  case spawnTransport server =>
    cases ans with
    | error _ => exact tended_still h rfl rfl rfl rfl
    | ok _ =>
      rw [show buildAfter (φ i) (.spawnTransport server) (.ok ()) = φ i from rfl,
        Function.update_eq_self]
      exact tended_acquire h i
  case connectEnd server =>
    rw [show buildAfter (φ i) (.connectEnd server) ans = φ i from rfl, Function.update_eq_self]
    exact tended_clear h i
  case serve server =>
    cases ans with
    | error _ => exact tended_still h rfl rfl rfl rfl
    | ok entry => exact tended_serve h ha
  case newEntry entry tools =>
    exact tended_congr (tended_box h hm) (tended_box h hm).sound rfl rfl rfl rfl
  case entriesGet server =>
    cases ans with
    | none => exact tended_still h rfl rfl rfl rfl
    | some entry =>
      rw [show buildAfter (φ i) (.entriesGet server) (some entry) = φ i from rfl,
        Function.update_eq_self]
      obtain ⟨entry, rfl⟩ := entry
      exact tended_share h (Eq.symm ha) i
  case entriesInsert server entry =>
    rw [show buildAfter (φ i) (.entriesInsert server entry) ans = φ i from rfl,
      Function.update_eq_self]
    exact tended_insert h hm
  case abandon =>
    exact tended_congr (tended_dropTask h i) (tended_dropTask h i).sound rfl rfl rfl rfl

end Steps

section Runs
variable {V : Service registryOps} {post : V.Request → V.Reply → Building → Prop}
  {K : List (Event registryWorld V) → Shared → Event registryWorld V → Prop}
  {tools : Entry → List Tool} {es : List (Event registryWorld V)} {σ : System registryWorld V}

theorem run_tended (hprog : ∀ r, Obeys building (post r) (V.program r) {})
    (h : Run (Shared.initial tools) K es σ) :
    Tended (fun i => trail building i es) σ.shared (processes es) := by
  refine run_preserved (P := building)
    (J := fun es σ => Tended (fun i => trail building i es) σ (processes es)) hprog ?_ h
  constructor
  case start => exact tended_initial tools
  case spawn =>
    intro es σ i r hJ hidle
    rw [trail_spawn, show building.idle = trail building i es from hidle.symm,
      Function.update_eq_self]
    exact hJ
  case act =>
    intro es σ i op ans σ' hJ _ hm hp
    rw [trail_act, hp.2]
    exact tended_step hJ hm hp.1
  case finish =>
    intro es σ i r reply hJ _
    rw [trail_finish]
    exact tended_dropTask hJ i
  case drop =>
    intro es σ i hJ _
    rw [trail_drop]
    have hdropped := tended_dropTask hJ i
    exact tended_congr hdropped hdropped.sound rfl rfl rfl rfl
  case outside =>
    intro es σ e σ' hJ _ ho
    exact tended_congr hJ hJ.sound rfl rfl (outside_frame ho).2.2.1 (cached_outside ho).2.symm

structure Emptyhanded (i : ℕ) (π : Processes) : Prop where
  kept : π.kept i = none
  handles : ∀ entry, (.task i, entry) ∉ π.handles

theorem emptyhanded_dropTask (i : ℕ) (π : Processes) : Emptyhanded i (dropTask π i) := by
  constructor <;> simp [dropTask, Estate.drop, Estate.clear, ofTask]

theorem emptyhanded_drop {i : ℕ} {π : Processes} (h : Emptyhanded i π)
    (gone : Holder × Entry → Bool) : Emptyhanded i (π.drop gone) :=
  ⟨h.kept, fun entry hmem => h.handles entry (List.mem_filter.mp hmem).1⟩

theorem emptyhanded_tend {i j : ℕ} {π : Processes} (h : Emptyhanded i π) (hj : j ≠ i) (op : Op)
    (ans : Ans op) : Emptyhanded i (tend j π op ans) := by
  have hclear : Emptyhanded i (π.clear j) :=
    ⟨by simpa [Estate.clear, hj.symm] using h.kept, h.handles⟩
  cases op <;> first | exact h | exact hclear | (cases ans <;> exact h) | skip
  case spawnTransport server =>
    cases ans with
    | error _ => exact h
    | ok _ => exact ⟨by simpa [tend, Estate.acquire, hj.symm] using h.kept, h.handles⟩
  case newEntry entry tools =>
    refine ⟨by simpa [tend, Estate.box, hj.symm] using h.kept, fun other hmem => ?_⟩
    rcases List.mem_cons.mp hmem with heq | hmem
    · cases heq
      exact hj rfl
    · exact h.handles other hmem
  case entriesGet server =>
    cases ans with
    | none => exact h
    | some entry =>
      refine ⟨h.kept, fun other hmem => ?_⟩
      rcases List.mem_cons.mp hmem with heq | hmem
      · cases heq
        exact hj rfl
      · exact h.handles other hmem
  case entriesInsert server entry =>
    refine ⟨h.kept, fun other hmem => ?_⟩
    rcases List.mem_cons.mp hmem with heq | hmem
    · cases heq
    · exact (emptyhanded_drop h _).handles other hmem
  case abandon => exact emptyhanded_drop hclear _

theorem idle_emptyhanded (h : Run (Shared.initial tools) K es σ) {i : ℕ} (hi : σ.tasks i = none) :
    Emptyhanded i (processes es) := by
  induction h with
  | start => exact ⟨rfl, by simp [processes]⟩
  | @step es σ σ' e _ _ hs ih =>
    cases hs with
    | outside _ => exact ih hi
    | @spawn j _ _ =>
      by_cases hj : j = i
      · subst hj
        simp at hi
      · rw [assign_other σ hj] at hi
        exact ih hi
    | @act j _ op _ ans _ _ _ =>
      by_cases hj : j = i
      · subst hj
        simp at hi
      · rw [assign_other σ hj] at hi
        exact emptyhanded_tend (ih hi) hj op ans
    | @finish j _ _ _ | @drop j _ _ _ _ _ =>
      by_cases hj : j = i
      · subst hj
        exact emptyhanded_dropTask j (processes es)
      · rw [assign_other σ hj] at hi
        exact emptyhanded_drop (π := (processes es).clear j)
          ⟨by simpa [Estate.clear, Ne.symm hj] using (ih hi).kept, (ih hi).handles⟩ (ofTask j)

/-- The guard over a group is in a running attempt, in the map's entry, or in an
entry that a running task is about to insert. -/
def Guarded (σ : System registryWorld V) (π : Processes) (group : ℕ) : Prop :=
  (∃ i, σ.tasks i ≠ none ∧ π.kept i = some group) ∨ ∃ entry, π.content entry = some group ∧
    (σ.shared.entries entry.server = some ⟨entry, rfl⟩ ∨
      ∃ i, σ.tasks i ≠ none ∧ (.task i, entry) ∈ π.handles)

theorem guarded_iff (hprog : ∀ r, Obeys building (post r) (V.program r) {})
    (h : Run (Shared.initial tools) K es σ) {group : ℕ} (hg : group < (processes es).acquired) :
    Guarded σ (processes es) group ↔ group ∉ (processes es).released := by
  have ht := run_tended hprog h
  constructor
  · rintro (⟨i, _, hkept⟩ | ⟨entry, hin, howner⟩)
    · exact (ht.sound.kept i group hkept).2
    · intro hkilled
      refine (ht.sound.shared entry group hin).mp hkilled ?_
      rcases howner with hmap | ⟨i, _, hhandle⟩
      · exact ⟨.map, (ht.map entry).mpr hmap⟩
      · exact ⟨.task i, hhandle⟩
  · intro hlive
    rcases ht.sound.accounted group hg with hkilled | ⟨i, hkept⟩ | ⟨entry, hin⟩
    · exact absurd hkilled hlive
    · refine Or.inl ⟨i, fun hidle => ?_, hkept⟩
      rw [(idle_emptyhanded h hidle).kept] at hkept
      cases hkept
    · have hshared : (processes es).Shared entry := by
        by_contra hnone
        exact hlive ((ht.sound.shared entry group hin).mpr hnone)
      obtain ⟨holder, hmem⟩ := hshared
      refine Or.inr ⟨entry, hin, ?_⟩
      cases holder with
      | map => exact Or.inl ((ht.map entry).mp hmem)
      | task i => exact Or.inr ⟨i, fun hidle => (idle_emptyhanded h hidle).handles entry hmem, hmem⟩

theorem dropRegistry_kills (hprog : ∀ r, Obeys building (post r) (V.program r) {})
    (h : Run (Shared.initial tools) K es σ) (hidle : ∀ i, σ.tasks i = none) :
    (dropRegistry (processes es)).released.Perm (List.range (processes es).acquired) := by
  have ht := run_tended hprog h
  have hdropped : Sound (dropRegistry (processes es)) := sound_drop ht.sound ofMap
  have hnone : ∀ entry, ¬ (dropRegistry (processes es)).Shared entry := by
    rintro entry ⟨holder, hmem⟩
    obtain ⟨hmem, hkept⟩ := List.mem_filter.mp hmem
    cases holder with
    | map => simp [ofMap] at hkept
    | task i => exact (idle_emptyhanded h (hidle i)).handles entry hmem
  rw [List.perm_ext_iff_of_nodup hdropped.once List.nodup_range]
  intro group
  rw [List.mem_range]
  refine ⟨hdropped.released group, fun hg => ?_⟩
  rcases hdropped.accounted group hg with hkilled | ⟨i, hkept⟩ | ⟨entry, hin⟩
  · exact hkilled
  · rw [show (dropRegistry (processes es)).kept i = none from
      (idle_emptyhanded h (hidle i)).kept] at hkept
    cases hkept
  · exact (hdropped.shared entry group hin).mpr (hnone entry)

end Runs

/-- In every run of a session, whatever is cancelled, times out or fails: no group
is killed twice, a group is alive exactly as long as it is guarded, and once no
request is running the live groups are those of the entries in the map. -/
theorem no_orphans (config : TomlConfig) (active : ActiveNamespace) (tools : Entry → List Tool)
    {K : List (MetaEvent (.withRegistry config active)) → Shared →
      MetaEvent (.withRegistry config active) → Prop}
    {es : List (MetaEvent (.withRegistry config active))}
    {σ : MetaSystem (.withRegistry config active)} (h : Run (Shared.initial tools) K es σ) :
    (processes es).released.Nodup ∧
    (∀ group ∈ (processes es).released, group < (processes es).acquired) ∧
    (∀ group < (processes es).acquired,
      Guarded σ (processes es) group ↔ group ∉ (processes es).released) ∧
    ((∀ i, σ.tasks i = none) → ∀ group < (processes es).acquired,
      group ∉ (processes es).released ↔ ∃ entry, (processes es).content entry = some group ∧
        σ.shared.entries entry.server = some ⟨entry, rfl⟩) := by
  have hprog := dispatch_builds config active
  have hsound := (run_tended hprog h).sound
  refine ⟨hsound.once, hsound.released, fun group hg => guarded_iff hprog h hg,
    fun hidle group hg => ?_⟩
  rw [← guarded_iff hprog h hg]
  constructor
  · rintro (⟨i, hrun, _⟩ | ⟨entry, hin, hmap | ⟨i, hrun, _⟩⟩)
    · exact absurd (hidle i) hrun
    · exact ⟨entry, hin, hmap⟩
    · exact absurd (hidle i) hrun
  · rintro ⟨entry, hin, hmap⟩
    exact Or.inr ⟨entry, hin, Or.inl hmap⟩

/-- Whatever inventories were asked for and however that went, a registry that is
dropped after the last of them leaves no child behind: each was killed once. -/
theorem dropped_registry_leaves_none (config : TomlConfig) (tools : Entry → List Tool)
    {K : List (RegistryEvent config) → Shared → RegistryEvent config → Prop}
    {es : List (RegistryEvent config)} {σ : RegistrySystem config}
    (h : Run (Shared.initial tools) K es σ) (hidle : ∀ i, σ.tasks i = none) :
    (dropRegistry (processes es)).released.Perm (List.range (processes es).acquired) :=
  dropRegistry_kills (serveCall_builds config) h hidle

section Retries
open FaninMcp.SingleFlight

/-- A request is dropped in the middle of its attempt, after the child was spawned;
another one connects. -/
def retrying : List (Choice (metaService gate) Hint Outside) :=
  .spawn 0 listRequest :: goes 0 14 ++ .drop 0 :: .spawn 1 listRequest :: goes 1 17 ++
    .outside (.snapshot 1) :: goes 1 11 ++ [.finish 1]

theorem retrying_runs : ∃ es σ, Run (W := registryWorld) (V := metaService gate)
    (Shared.initial probeTools) (fun _ _ _ => true = true) es σ ∧
      ((processes es).acquired == 2 && (processes es).released == [0]) = true :=
  playAll_reaches responder retrying (by decide)

theorem no_orphans_retrying : ∃ (es : List (MetaEvent gate)) (σ : MetaSystem gate),
    Run (W := registryWorld) (V := metaService gate) (Shared.initial probeTools)
      (fun _ _ _ => True) es σ ∧ (processes es).released = [0] ∧ Guarded σ (processes es) 1 := by
  obtain ⟨es, σ, hr, hgoal⟩ := retrying_runs
  obtain ⟨hspawned, hkilled⟩ := Bool.and_eq_true_iff.mp hgoal
  have hkilled : (processes es).released = [0] := eq_of_beq hkilled
  have hspawned : (processes es).acquired = 2 := eq_of_beq hspawned
  have h := no_orphans gateConfig gateActive probeTools hr
  refine ⟨es, σ, run_weaken (fun _ _ _ _ => trivial) hr, hkilled, (h.2.2.1 1 (by omega)).mpr ?_⟩
  rw [hkilled]
  decide

def raced (es : List (RegistryEvent probeConfig)) (σ : RegistrySystem probeConfig) : Bool :=
  (σ.tasks 0).isNone && (σ.tasks 1).isNone && (processes es).acquired == 2 &&
    es.all fun e => decide (e.task ∈ [none, some 0, some 1])

theorem raced_runs : ∃ es σ, Run (W := registryWorld) (V := registryService probeConfig)
    (Shared.initial probeTools) (fun _ _ _ => true = true) es σ ∧ raced es σ = true :=
  playAll_reaches responder race (by decide)

theorem dropped_registry_leaves_none_race : ∃ (es : List (RegistryEvent probeConfig))
    (σ : RegistrySystem probeConfig), Run (W := registryWorld) (V := registryService probeConfig)
      (Shared.initial probeTools) (fun _ _ _ => True) es σ ∧
        (dropRegistry (processes es)).released.Perm [0, 1] := by
  obtain ⟨es, σ, hr, hraced⟩ := raced_runs
  simp only [raced, Bool.and_eq_true, Option.isNone_iff_eq_none, beq_iff_eq, List.all_eq_true,
    decide_eq_true_eq] at hraced
  obtain ⟨⟨⟨hfirst, hsecond⟩, hspawned⟩, htasks⟩ := hraced
  have hidle : ∀ i, σ.tasks i = none := by
    intro i
    by_cases hi : i = 0 ∨ i = 1
    · rcases hi with rfl | rfl
      · exact hfirst
      · exact hsecond
    · refine idle_without_events hr fun e he hei => hi ?_
      have htask := htasks e he
      rw [hei] at htask
      simpa using htask
  have h := dropped_registry_leaves_none probeConfig probeTools hr hidle
  rw [hspawned] at h
  exact ⟨es, σ, run_weaken (fun _ _ _ _ => trivial) hr, h⟩

end Retries

end FaninMcp.ProcessLifetimes
