import FaninMcp.DiscoveryAgreement
import FaninMcp.ProcessLifetimes
import FaninMcp.RequestRoutine

/-!
# One process for a server

A task raises the process of a server behind the server's guard, once, and hands
it to the map or loses it before it leaves the guard. So no server ever has two
live processes, and there are never more of them than servers that may be used.
-/

set_option autoImplicit false

namespace FaninMcp.ProcessBound
open Foundation.RustText Foundation.JsonText Foundation.AsyncPrograms Foundation.SharedOwnership
  FaninMcp.ConfigModel FaninMcp.ErrorModel FaninMcp.NamespaceAcl FaninMcp.RegistryModel
  FaninMcp.RegistryWorld FaninMcp.RegistryProtocol FaninMcp.RegistryWalk
  FaninMcp.RegistryInvariant FaninMcp.MetaTools FaninMcp.MetaAcl FaninMcp.PermissionLayer
  FaninMcp.DiscoveryAgreement FaninMcp.ProcessModel FaninMcp.ProcessLifetimes FaninMcp.RequestRoutine

section Raising

/-- A task is in an attempt, or has made an entry that is still to be inserted. -/
inductive Raising where
  | idle
  | connecting (server : Text)
  | made (entry : Entry)

def Raising.server : Raising → Option Text
  | .idle => none
  | .connecting server => some server
  | .made entry => some entry.server

def Raising.ended : Raising → Raising
  | .made entry => .made entry
  | _ => .idle

def raiseAfter (ρ : Raising) : (op : Op) → Ans op → Raising
  | .connectBegin server, _ => .connecting server
  | .newEntry entry _, _ => .made entry
  | .connectEnd _, _ => ρ.ended
  | .entriesInsert _ _, _ | .abandon, _ => .idle
  | _, _ => ρ

def mayRaise (active : ActiveNamespace) (ρ : Raising) : Op → Prop
  | .connectBegin _ | .entriesGet _ | .release (.init _) => ρ = .idle
  | .spawnTransport server => ρ = .connecting server ∧ active.isServerAllowed server = true
  | .newEntry entry _ => ρ = .connecting entry.server
  | .entriesInsert _ entry => ρ = .made entry.1
  | _ => True

abbrev raising (active : ActiveNamespace) : Protocol registryOps :=
  ⟨Raising, .idle, mayRaise active, raiseAfter⟩

variable {config : TomlConfig} {active : ActiveNamespace} {server : Text}
  {serverConfig : ServerConfig} {ρ : Raising}

theorem raising_rests : Rests (raising active) .idle := by
  refine ⟨fun op h => ?_, fun φ op _ _ => ⟨trivial, fun _ => rfl⟩,
    fun φ op _ _ => ⟨trivial, fun _ => rfl⟩⟩
  cases op <;> first | exact h.elim | exact ⟨trivial, fun _ => rfl⟩ | exact ⟨rfl, fun _ => rfl⟩ | skip
  case release lock => cases lock <;> first | exact ⟨trivial, fun _ => rfl⟩ | exact ⟨rfl, fun _ => rfl⟩

theorem resolution_raises {op : Op} (h : isResolution op = true) :
    mayRaise active ρ op ∧ ∀ ans, raiseAfter ρ op ans = ρ := by
  cases op <;> first | exact ⟨trivial, fun _ => rfl⟩ | cases h

abbrev within (active : ActiveNamespace) (server : Text) : Protocol registryOps :=
  (raising active).within fun φ => φ = .connecting server

theorem startService_raises (hallowed : active.isServerAllowed server = true)
    (env headers : TextMap Text) : Obeys (within active server)
    (Comes (fun _ φ => φ = .connecting server) fun _ φ => φ = .connecting server)
    (startService server serverConfig env headers) (.connecting server) := by
  have hprepare : ∀ op, isPreparation op = true →
      (within active server).may (.connecting server) op ∧
        ∀ ans, raiseAfter (.connecting server) op ans = .connecting server := by
    intro op hop
    obtain ⟨hmay, hafter⟩ := @resolution_raises active (.connecting server) op
      (preparation_resolution hop)
    exact ⟨⟨hmay, rfl⟩, hafter⟩
  refine startService_walk serverConfig env headers hprepare (fun _ => rfl)
    ⟨⟨⟨rfl, hallowed⟩, rfl⟩, fun _ => rfl⟩ (fun _ _ _ => ⟨trivial, rfl⟩)
    ⟨⟨trivial, rfl⟩, fun out => ?_⟩
  cases out <;> exact rfl

theorem connect_raises (hallowed : active.isServerAllowed server = true)
    (env headers : TextMap Text) : Obeys (within active server)
    (Comes (fun entry φ => φ = .made entry.1) fun _ φ => φ = .connecting server)
    (connect server serverConfig env headers) (.connecting server) := by
  refine obeys_except (startService_raises hallowed env headers) (fun _ _ hφ => hφ) ?_
  rintro entry _ rfl
  refine ⟨⟨trivial, rfl⟩, fun _ => ⟨⟨trivial, rfl⟩, fun reply => ?_⟩⟩
  cases reply with
  | error e => exact rfl
  | ok tools => exact ⟨⟨congrArg Raising.connecting entry.2.symm, rfl⟩, fun _ => rfl⟩

theorem attempt_raises (hallowed : active.isServerAllowed server = true)
    (env headers : TextMap Text) : Obeys (raising active)
    (Comes (fun entry φ => φ = .made entry.1) fun _ φ => φ = .idle)
    (attempt server serverConfig env headers) .idle := by
  have htimed : Obeys (raising active)
      (Finds (Comes (fun entry φ => φ = .made entry.1) fun _ φ => φ = .connecting server)
        (· = .connecting server)) (timed (connect server serverConfig env headers))
      (.connecting server) :=
    obeys_interruptible (fun _ => trivial) (fun _ _ => rfl)
      (obeys_bind (connect_raises hallowed env headers))
  rw [attempt_eq]
  refine ⟨rfl, fun _ => obeys_option htimed (fun out φ hφ => ⟨trivial, fun _ => ?_⟩) ?_⟩
  · cases out <;> exact congrArg Raising.ended hφ
  · rintro _ rfl
    exact ⟨trivial, fun _ => rfl⟩

theorem connectAbsent_raises (hallowed : active.isServerAllowed server = true) :
    Settles (raising active) .idle (connectAbsent config server) := by
  refine settles_comes.mpr (connectAbsent_walk (fun _ hop => resolution_raises hop)
    (fun _ => rfl) (fun _ => rfl) (fun _ => rfl)
    (fun serverConfig env headers _ => attempt_raises hallowed env headers) ?_)
  rintro entry _ rfl
  exact ⟨trivial, fun _ => ⟨rfl, fun _ => ⟨trivial, fun _ => rfl⟩⟩⟩

theorem dispatch_raises (request : Request) : Settles (raising active) .idle
    (dispatchTool (.withRegistry config active) request) :=
  settles_dispatch raising_rests (fun _ hallowed => connectAbsent_raises hallowed) request

end Raising

section Servers

def started : (op : Op) → Ans op → Option Text
  | .spawnTransport server, .ok _ => some server
  | _, _ => none

/-- The servers whose processes were spawned in a run, in this order: a group is
found under its number. -/
def spawns {V : Service registryOps} : List (Event registryWorld V) → List Text
  | [] => []
  | .act _ op ans::es => spawns es ++ (started op ans).toList
  | _::es => spawns es

/-- The tasks, the map and the processes agree on whose process is whose. -/
structure Assigned (φ : ℕ → Trail) (ρ : ℕ → Raising) (σ : Shared) (π : Processes)
    (servers : List Text) : Prop where
  absent : ∀ i server, (ρ i).server = some server → (φ i).absent = some server
  count : servers.length = π.acquired
  kept : ∀ i group, π.kept i = some group →
    ∃ server, ρ i = .connecting server ∧ servers[group]? = some server
  content : ∀ entry group, π.content entry = some group → servers[group]? = some entry.server
  handles : ∀ holder entry, (holder, entry) ∈ π.handles →
    σ.entries entry.server = some ⟨entry, rfl⟩ ∨ ∃ i, holder = .task i ∧ ρ i = .made entry

variable {φ : ℕ → Trail} {ρ : ℕ → Raising} {σ : Shared} {π : Processes} {servers : List Text}
  {i : ℕ} {active : ActiveNamespace}

theorem assigned_initial (tools : Entry → List Tool) :
    Assigned (fun _ => {}) (fun _ => .idle) (Shared.initial tools) {} [] := by
  constructor <;> simp [Raising.server]

theorem absent_other {ψ : Trail} {after : Raising} (h : Assigned φ ρ σ π servers)
    (hi : ∀ server, after.server = some server → ψ.absent = some server) (j : ℕ) (server : Text)
    (hj : (Function.update ρ i after j).server = some server) :
    (Function.update φ i ψ j).absent = some server := by
  rcases eq_or_ne j i with rfl | hne
  · rw [Function.update_self] at hj ⊢
    exact hi server hj
  · rw [Function.update_of_ne hne] at hj ⊢
    exact h.absent j server hj

theorem assigned_dropTask (h : Assigned φ ρ σ π servers) (i : ℕ) :
    Assigned (Function.update φ i {}) (Function.update ρ i .idle) σ (dropTask π i) servers := by
  refine ⟨absent_other h (by simp [Raising.server]), h.count, fun j group hj => ?_,
    h.content, fun holder entry hmem => ?_⟩
  · obtain ⟨hne, hkept⟩ := kept_update hj
    rw [Function.update_of_ne hne]
    exact h.kept j group hkept
  · obtain ⟨hmem, hstays⟩ := List.mem_filter.mp hmem
    rcases h.handles holder entry hmem with hmap | ⟨j, rfl, hmade⟩
    · exact Or.inl hmap
    · have hne : j ≠ i := by
        rintro rfl
        simp [ofTask] at hstays
      exact Or.inr ⟨j, rfl, by rw [Function.update_of_ne hne, hmade]⟩

/-- What else a task learns does not matter, as long as it has raised nothing or
still knows its server to be absent. -/
theorem assigned_learn {ψ : Trail} (h : Assigned φ ρ σ π servers)
    (hψ : (ρ i).server ≠ none → ψ.absent = (φ i).absent) :
    Assigned (Function.update φ i ψ) ρ σ π servers := by
  refine ⟨fun j server hj => ?_, h.count, h.kept, h.content, h.handles⟩
  rcases eq_or_ne j i with rfl | hne
  · rw [Function.update_self, hψ (by simp [hj]), h.absent j server hj]
  · rw [Function.update_of_ne hne, h.absent j server hj]

theorem assigned_begin {server : Text} (h : Assigned φ ρ σ π servers) (hidle : ρ i = .idle)
    (habsent : (φ i).absent = some server) :
    Assigned (Function.update φ i { φ i with attempt := some server })
      (Function.update ρ i (.connecting server)) σ π servers := by
  refine ⟨absent_other h fun s hs => habsent.trans hs, h.count, fun j group hj => ?_, h.content,
    fun holder entry hmem => ?_⟩
  · obtain ⟨s, hraising, hgroup⟩ := h.kept j group hj
    have hne : j ≠ i := by
      rintro rfl
      rw [hidle] at hraising
      cases hraising
    exact ⟨s, by rw [Function.update_of_ne hne, hraising], hgroup⟩
  · rcases h.handles holder entry hmem with hmap | ⟨j, rfl, hmade⟩
    · exact Or.inl hmap
    · have hne : j ≠ i := by
        rintro rfl
        rw [hidle] at hmade
        cases hmade
      exact Or.inr ⟨j, rfl, by rw [Function.update_of_ne hne, hmade]⟩

theorem assigned_acquire {server : Text} (h : Assigned φ ρ σ π servers)
    (hraising : ρ i = .connecting server) :
    Assigned φ ρ σ (π.acquire i) (servers ++ [server]) := by
  have hlonger : ∀ {group : ℕ} {s : Text}, servers[group]? = some s →
      (servers ++ [server])[group]? = some s := fun hs => by
    rw [List.getElem?_append_left (List.getElem?_eq_some_iff.mp hs).1, hs]
  refine ⟨h.absent, ?_, fun j group hj => ?_, fun entry group hg => hlonger (h.content entry group hg),
    h.handles⟩
  · rw [List.length_append, h.count]
    rfl
  · rcases eq_or_ne j i with rfl | hne
    · have hgroup : group = servers.length := by
        simpa [Estate.acquire, h.count, eq_comm] using hj
      exact ⟨server, hraising, by simp [hgroup]⟩
    · obtain ⟨s, hs, hgroup⟩ := h.kept j group (by simpa [Estate.acquire, Estate.clear, hne] using hj)
      exact ⟨s, hs, hlonger hgroup⟩

theorem assigned_box {entry : Entry} (h : Assigned φ ρ σ π servers)
    (hraising : ρ i = .connecting entry.server) (ψ : Trail) (hψ : ψ.absent = (φ i).absent) :
    Assigned (Function.update φ i ψ) (Function.update ρ i (.made entry)) σ
      (π.box i entry (.task i)) servers := by
  refine ⟨absent_other h fun s hs => ?_, h.count, fun j group hj => ?_, fun other group hg => ?_,
    fun holder other hmem => ?_⟩
  · rw [hψ]
    exact h.absent i s (by rw [hraising]; exact hs)
  · obtain ⟨hne, hkept⟩ := kept_update hj
    rw [Function.update_of_ne hne]
    exact h.kept j group hkept
  · rcases eq_or_ne other entry with rfl | hne
    · obtain ⟨s, hs, hgroup⟩ := h.kept i group (by simpa [Estate.box] using hg)
      rw [hraising] at hs
      cases hs
      exact hgroup
    · exact h.content other group (by simpa [Estate.box, hne] using hg)
  · rcases List.mem_cons.mp hmem with heq | hmem
    · cases heq
      exact Or.inr ⟨i, rfl, Function.update_self _ _ _⟩
    · rcases h.handles holder other hmem with hmap | ⟨j, rfl, hmade⟩
      · exact Or.inl hmap
      · have hne : j ≠ i := by
          rintro rfl
          rw [hraising] at hmade
          cases hmade
        exact Or.inr ⟨j, rfl, by rw [Function.update_of_ne hne, hmade]⟩

theorem assigned_end (h : Assigned φ ρ σ π servers) (ψ : Trail) (hψ : ψ.absent = (φ i).absent) :
    Assigned (Function.update φ i ψ) (Function.update ρ i (ρ i).ended) σ (π.clear i) servers := by
  refine ⟨absent_other h fun s hs => ?_, h.count, fun j group hj => ?_, h.content,
    fun holder entry hmem => ?_⟩
  · rw [hψ]
    refine h.absent i s ?_
    cases hρ : ρ i <;> rw [hρ] at hs <;> first | exact hs | cases hs
  · obtain ⟨hne, hkept⟩ := kept_update hj
    rw [Function.update_of_ne hne]
    exact h.kept j group hkept
  · rcases h.handles holder entry hmem with hmap | ⟨j, rfl, hmade⟩
    · exact Or.inl hmap
    · refine Or.inr ⟨j, rfl, ?_⟩
      rcases eq_or_ne j i with rfl | hne
      · rw [Function.update_self, hmade]
        rfl
      · rw [Function.update_of_ne hne, hmade]

theorem assigned_share {entry : Entry} (h : Assigned φ ρ σ π servers)
    (hin : σ.entries entry.server = some ⟨entry, rfl⟩) (holder : Holder) :
    Assigned φ ρ σ (π.share holder entry) servers := by
  refine ⟨h.absent, h.count, h.kept, h.content, fun other found hmem => ?_⟩
  rcases List.mem_cons.mp hmem with heq | hmem
  · cases heq
    exact Or.inl hin
  · exact h.handles other found hmem

/-- The one entry of the server that was still to be inserted is now in the map. -/
theorem assigned_insert {server : Text} {entry : EntryOf server} (h : Assigned φ ρ σ π servers)
    (hmade : ρ i = .made entry.1) (hempty : σ.entries server = none) (ψ : Trail) :
    Assigned (Function.update φ i ψ) (Function.update ρ i .idle) (σ.insertEntry server entry)
      ((π.drop (mappedFor server)).share .map entry.1) servers := by
  obtain ⟨entry, rfl⟩ := entry
  have hin : (σ.insertEntry entry.server ⟨entry, rfl⟩).entries entry.server = some ⟨entry, rfl⟩ :=
    Function.update_self _ _ _
  refine ⟨absent_other h (by simp [Raising.server]), h.count, fun j group hj => ?_, h.content,
    fun holder other hmem => ?_⟩
  · obtain ⟨s, hs, hgroup⟩ := h.kept j group hj
    have hne : j ≠ i := by
      rintro rfl
      rw [hmade] at hs
      cases hs
    exact ⟨s, by rw [Function.update_of_ne hne, hs], hgroup⟩
  · rcases List.mem_cons.mp hmem with heq | hmem
    · cases heq
      exact Or.inl hin
    · rcases h.handles holder other (List.mem_filter.mp hmem).1 with hmap | ⟨j, rfl, hj⟩
      · have hne : other.server ≠ entry.server := by
          intro hs
          rw [← hs, hmap] at hempty
          cases hempty
        exact Or.inl ((Function.update_of_ne hne _ _).trans hmap)
      · rcases eq_or_ne j i with rfl | hne
        · rw [hmade] at hj
          cases hj
          exact Or.inl hin
        · exact Or.inr ⟨j, rfl, by rw [Function.update_of_ne hne, hj]⟩

variable {op : Op} {ans : Ans op}

theorem assigned_congr {σ' : Shared} (h : Assigned φ ρ σ π servers)
    (hentries : σ'.entries = σ.entries) : Assigned φ ρ σ' π servers := by
  refine ⟨h.absent, h.count, h.kept, h.content, ?_⟩
  rw [hentries]
  exact h.handles

theorem assigned_silent (hstarted : started op ans = none) (h : Assigned φ ρ σ π servers) :
    Assigned φ ρ σ π (servers ++ (started op ans).toList) := by
  rw [hstarted, Option.toList_none, List.append_nil]
  exact h

theorem assigned_still (h : Assigned φ ρ σ π servers)
    (hsame : raiseAfter (ρ i) op ans = ρ i)
    (habsent : (ρ i).server ≠ none → (after (φ i) op ans).absent = (φ i).absent)
    (hentries : (effect i σ op ans).entries = σ.entries) (htend : tend i π op ans = π)
    (hstarted : started op ans = none) :
    Assigned (Function.update φ i (after (φ i) op ans))
      (Function.update ρ i (raiseAfter (ρ i) op ans)) (effect i σ op ans) (tend i π op ans)
      (servers ++ (started op ans).toList) := by
  rw [hsame, htend, Function.update_eq_self]
  exact assigned_silent hstarted (assigned_congr (assigned_learn h habsent) hentries)

theorem assigned_step (h : Assigned φ ρ σ π servers) (hc : Consistent φ σ) (hm : may (φ i) op)
    (hr : mayRaise active (ρ i) op) (ha : Answers i σ op ans) :
    Assigned (Function.update φ i (after (φ i) op ans))
      (Function.update ρ i (raiseAfter (ρ i) op ans)) (effect i σ op ans) (tend i π op ans)
      (servers ++ (started op ans).toList) := by
  have hidle : ∀ {f : Trail → Option Text}, ρ i = .idle → (ρ i).server ≠ none →
      f (after (φ i) op ans) = f (φ i) := fun hidle hne => absurd (by rw [hidle]; rfl) hne
  cases op <;> first
    | exact assigned_still h rfl (fun _ => rfl) rfl rfl rfl
    | (cases ans <;> exact assigned_still h rfl (fun _ => rfl) rfl rfl rfl)
    | skip
  case release lock =>
    refine assigned_still h rfl (fun hne => ?_) rfl rfl rfl
    cases lock with
    | init guard => exact hidle hr hne
    | _ => rfl
  case entriesGet server =>
    cases ans with
    | none => exact assigned_still h rfl (hidle hr) rfl rfl rfl
    | some entry =>
      obtain ⟨entry, rfl⟩ := entry
      have hlearnt : Assigned (Function.update φ i { φ i with got := some entry }) ρ σ π servers :=
        assigned_learn h fun _ => rfl
      refine assigned_silent rfl ?_
      rw [show raiseAfter (ρ i) (.entriesGet entry.server) (some ⟨entry, rfl⟩) = ρ i from rfl,
        Function.update_eq_self]
      exact assigned_share hlearnt (Eq.symm ha) (.task i)
  case connectBegin server => exact assigned_silent rfl (assigned_begin h hr hm.1)
  case connectEnd server => exact assigned_silent rfl (assigned_end h _ rfl)
  case spawnTransport server =>
    cases ans with
    | error e => exact assigned_still h rfl (fun _ => rfl) rfl rfl rfl
    | ok _ =>
      rw [show after (φ i) (.spawnTransport server) (.ok ()) = φ i from rfl,
        show raiseAfter (ρ i) (.spawnTransport server) (.ok ()) = ρ i from rfl,
        Function.update_eq_self, Function.update_eq_self]
      exact assigned_acquire h hr.1
  case newEntry entry tools =>
    exact assigned_silent rfl (assigned_congr (assigned_box h hr _ rfl) rfl)
  case entriesInsert server entry =>
    obtain ⟨_, habsent, _, _⟩ := hm
    exact assigned_silent rfl (assigned_insert h hr (hc.absent i server habsent).2 _)
  case abandon => exact assigned_silent rfl (assigned_congr (assigned_dropTask h i) rfl)

end Servers

section Uniqueness

def Live (π : Processes) (group : ℕ) : Prop := group < π.acquired ∧ group ∉ π.released

def liveGroups (π : Processes) : Finset ℕ := Finset.range π.acquired \ π.released.toFinset

theorem mem_liveGroups {π : Processes} {group : ℕ} : group ∈ liveGroups π ↔ Live π group := by
  simp [liveGroups, Live]

def Raising.group (π : Processes) (i : ℕ) : Raising → Option ℕ
  | .idle => none
  | .connecting _ => π.kept i
  | .made entry => π.content entry

variable {φ : ℕ → Trail} {ρ : ℕ → Raising} {σ : Shared} {π : Processes} {servers : List Text}

/-- A live group of a server is being raised, or is that of the server's entry in the map. -/
theorem live_assigned (h : Assigned φ ρ σ π servers) (hs : Sound π) {group : ℕ} {server : Text}
    (hlive : Live π group) (hgroup : servers[group]? = some server) :
    (∃ i, (ρ i).server = some server ∧ (ρ i).group π i = some group) ∨
      ∃ entry : EntryOf server, σ.entries server = some entry ∧
        π.content entry.1 = some group := by
  rcases hs.accounted group hlive.1 with hkilled | ⟨i, hkept⟩ | ⟨entry, hin⟩
  · exact absurd hkilled hlive.2
  · obtain ⟨s, hraising, hs⟩ := h.kept i group hkept
    rw [hgroup] at hs
    refine Or.inl ⟨i, ?_, ?_⟩
    · rw [hraising, hs]
      rfl
    · rw [hraising]
      exact hkept
  · obtain rfl : server = entry.server := Option.some.inj (hgroup.symm.trans (h.content entry group hin))
    have hshared : π.Shared entry := by
      by_contra hnone
      exact hlive.2 ((hs.shared entry group hin).mpr hnone)
    obtain ⟨holder, hmem⟩ := hshared
    rcases h.handles holder entry hmem with hmap | ⟨i, _, hmade⟩
    · exact Or.inr ⟨⟨entry, rfl⟩, hmap, hin⟩
    · refine Or.inl ⟨i, ?_, ?_⟩
      · rw [hmade]
        rfl
      · rw [hmade]
        exact hin

theorem raising_alone (h : Assigned φ ρ σ π servers) (hc : Consistent φ σ) {i : ℕ} {server : Text}
    (hi : (ρ i).server = some server) : σ.entries server = none ∧
      ∀ j, (ρ j).server = some server → j = i := by
  obtain ⟨hguard, hnone⟩ := hc.absent i server (h.absent i server hi)
  exact ⟨hnone, fun j hj =>
    guarding_unique hc (hc.absent j server (h.absent j server hj)).1 hguard⟩

theorem live_unique (h : Assigned φ ρ σ π servers) (hc : Consistent φ σ) (hs : Sound π)
    {group other : ℕ} (hlive : Live π group) (hother : Live π other)
    (hsame : servers[group]? = servers[other]?) : group = other := by
  obtain ⟨server, hserver⟩ : ∃ server, servers[group]? = some server :=
    ⟨_, List.getElem?_eq_getElem (h.count ▸ hlive.1)⟩
  rcases live_assigned h hs hlive hserver with ⟨i, hi, hgroup⟩ | ⟨entry, hin, hgroup⟩
  · obtain ⟨hnone, halone⟩ := raising_alone h hc hi
    rcases live_assigned h hs hother (hsame ▸ hserver) with ⟨j, hj, hgroup'⟩ | ⟨entry, hin, _⟩
    · obtain rfl := halone j hj
      exact Option.some.inj (hgroup.symm.trans hgroup')
    · rw [hnone] at hin
      cases hin
  · rcases live_assigned h hs hother (hsame ▸ hserver) with ⟨j, hj, _⟩ | ⟨entry', hin', hgroup'⟩
    · rw [(raising_alone h hc hj).1] at hin
      cases hin
    · obtain rfl : entry = entry' := Option.some.inj (hin.symm.trans hin')
      exact Option.some.inj (hgroup.symm.trans hgroup')

end Uniqueness

section Runs
variable {config : TomlConfig} {active : ActiveNamespace} {tools : Entry → List Tool}
  {K : List (MetaEvent (.withRegistry config active)) → Shared →
    MetaEvent (.withRegistry config active) → Prop}
  {es : List (MetaEvent (.withRegistry config active))}
  {σ σ' : MetaSystem (.withRegistry config active)}
  {e : MetaEvent (.withRegistry config active)}

theorem meta_consistent (h : Run (Shared.initial tools) K es σ) :
    Consistent (fun i => trail registryProtocol i es) σ.shared :=
  run_consistent dispatch_clean (fun _ _ _ hclean => hclean) h

theorem run_assigned (h : Run (Shared.initial tools) K es σ) :
    Assigned (fun i => trail registryProtocol i es) (fun i => trail (raising active) i es) σ.shared
      (processes es) (spawns es) := by
  induction h with
  | start => exact assigned_initial tools
  | @step es σ σ' e hr _ hs ih =>
    cases hs with
    | @spawn i request hi =>
      rw [trail_spawn, trail_spawn, show registryProtocol.idle = trail registryProtocol i es from
        (trail_idle hr hi).symm, show (raising active).idle = trail (raising active) i es from
        (trail_idle hr hi).symm, Function.update_eq_self, Function.update_eq_self]
      exact ih
    | @act i request op next ans shared hi hp =>
      rw [trail_act, trail_act]
      have hm := (run_obeys (P := registryProtocol) dispatch_clean hr hi).1
      have hraise := (run_obeys (P := raising active) dispatch_raises hr hi).1
      rw [assign_shared, hp.2]
      exact assigned_step ih (meta_consistent hr) hm hraise hp.1
    | @finish i request reply hi =>
      rw [trail_finish, trail_finish]
      exact assigned_dropTask ih i
    | @drop i request op next hi hw =>
      rw [trail_drop, trail_drop]
      exact assigned_congr (assigned_dropTask ih i) rfl
    | outside ho => exact assigned_congr ih (outside_frame ho).2.2.1

theorem spawns_allowed (h : Run (Shared.initial tools) K es σ) {server : Text}
    (hs : server ∈ spawns es) : active.isServerAllowed server = true := by
  induction h with
  | start => cases hs
  | @step es σ σ' e hr _ hstep ih =>
    cases hstep with
    | @act i request op next ans shared hi hp =>
      rcases List.mem_append.mp hs with hold | hnew
      · exact ih hold
      · have hraise := (run_obeys (P := raising active) dispatch_raises hr hi).1
        cases op <;> try cases hnew
        case spawnTransport other =>
          cases ans with
          | error e => cases hnew
          | ok _ =>
            obtain rfl := List.mem_singleton.mp hnew
            exact hraise.2
    | spawn _ _ | finish _ | drop _ _ | outside _ => exact ih hs

/-- In every interleaving, whatever fails, times out or is given up: no server
has two live processes, only servers that may be used have one, and so there are
never more processes than such servers. -/
theorem one_process_per_server (config : TomlConfig) (active : ActiveNamespace)
    (tools : Entry → List Tool) {K : List (MetaEvent (.withRegistry config active)) → Shared →
      MetaEvent (.withRegistry config active) → Prop}
    {es : List (MetaEvent (.withRegistry config active))}
    {σ : MetaSystem (.withRegistry config active)} (h : Run (Shared.initial tools) K es σ) :
    (∀ group other, Live (processes es) group → Live (processes es) other →
      (spawns es)[group]? = (spawns es)[other]? → group = other) ∧
    (∀ group, Live (processes es) group → ∃ server, (spawns es)[group]? = some server ∧
      active.isServerAllowed server = true) ∧
    (liveGroups (processes es)).card ≤ active.servers.card := by
  have hassigned := run_assigned h
  have hsound := (run_tended (dispatch_builds config active) h).sound
  have hunique : ∀ group other, Live (processes es) group → Live (processes es) other →
      (spawns es)[group]? = (spawns es)[other]? → group = other :=
    fun _ _ hlive hother hsame => live_unique hassigned (meta_consistent h) hsound hlive hother hsame
  have hallowed : ∀ group, Live (processes es) group → ∃ server,
      (spawns es)[group]? = some server ∧ active.isServerAllowed server = true := by
    intro group hlive
    have hlt : group < (spawns es).length := hassigned.count ▸ hlive.1
    exact ⟨_, List.getElem?_eq_getElem hlt, spawns_allowed h (List.getElem_mem hlt)⟩
  refine ⟨hunique, hallowed, ?_⟩
  refine Finset.card_le_card_of_injOn (fun group => ((spawns es)[group]?).getD []) ?_ ?_
  · intro group hgroup
    obtain ⟨server, hserver, hok⟩ := hallowed group (mem_liveGroups.mp hgroup)
    simpa [hserver, ActiveNamespace.isServerAllowed] using hok
  · intro group hgroup other hother hsame
    obtain ⟨server, hserver, _⟩ := hallowed group (mem_liveGroups.mp hgroup)
    obtain ⟨server', hserver', _⟩ := hallowed other (mem_liveGroups.mp hother)
    refine hunique group other (mem_liveGroups.mp hgroup) (mem_liveGroups.mp hother) ?_
    rw [hserver, hserver']
    simpa [hserver, hserver'] using hsame

theorem one_process_per_server_retrying : ∃ (es : List (MetaEvent gate)) (σ : MetaSystem gate),
    Run (W := registryWorld) (V := metaService gate) (Shared.initial SingleFlight.probeTools)
      (fun _ _ _ => True) es σ ∧ (processes es).acquired = 2 ∧ (liveGroups (processes es)).card ≤ 1 := by
  obtain ⟨es, σ, hr, hgoal⟩ := retrying_runs
  obtain ⟨hspawned, _⟩ := Bool.and_eq_true_iff.mp hgoal
  exact ⟨es, σ, run_weaken (fun _ _ _ _ => trivial) hr, eq_of_beq hspawned,
    (one_process_per_server gateConfig gateActive SingleFlight.probeTools hr).2.2⟩

end Runs

end FaninMcp.ProcessBound
