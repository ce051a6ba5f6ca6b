import FaninMcp.Foundation.WaitGraph
import FaninMcp.MetaAcl
import FaninMcp.RegistryWalk
import FaninMcp.SingleFlight

/-!
# The discipline of the locks

A task that waits for an upstream holds no lock but the init guard of the server
it connects to, and that guard is wanted by tasks for the same server only. Init
guards are acquired with nothing held, every other lock with nothing but an init
guard held, so no cycle of waiting tasks can form.
-/

set_option autoImplicit false

namespace FaninMcp.LockDiscipline
open Foundation.RustText Foundation.JsonText Foundation.AsyncPrograms Foundation.WaitGraph
  FaninMcp.ConfigModel FaninMcp.ErrorModel FaninMcp.RegistryModel FaninMcp.RegistryWorld
  FaninMcp.RegistryProtocol FaninMcp.RegistryWalk FaninMcp.RegistryObeys FaninMcp.RegistryInvariant
  FaninMcp.SingleFlight FaninMcp.MetaAcl

section Holding

/-- The operations of an upstream that a task waits for, and the timer that is
looked at while it does. -/
def isUpstream : Op → Bool
  | .serve _ | .listRequest _ | .listReply _ | .callRequest _ _ _ | .callReply _ | .poll
  | .cancelled => true
  | _ => false

/-- The locks a task holds, and the server it is connecting to. -/
structure Holding where
  locks : List Lock := []
  attempt : Option Text := none

def holdingAfter (φ : Holding) : (op : Op) → Ans op → Holding
  | .acquire lock, _ => { φ with locks := lock :: φ.locks }
  | .release lock, _ => { φ with locks := φ.locks.filter (· != lock) }
  | .connectBegin server, _ => { φ with attempt := some server }
  | .connectEnd _, _ => { φ with attempt := none }
  | .abandon, _ => {}
  | _, _ => φ

def Holding.Bare (φ : Holding) : Prop :=
  φ.locks = [] ∨ ∃ guard server, φ.locks = [.init guard] ∧ φ.attempt = some server

abbrev holdingProtocol : Protocol registryOps :=
  ⟨Holding, {}, fun φ op => isUpstream op = true → φ.Bare, holdingAfter⟩

def isScoping : Op → Bool
  | .acquire _ | .release _ | .connectBegin _ | .connectEnd _ | .abandon => true
  | _ => false

variable {φ : Holding} {α : Type} {R : α → Prop} {server : Text}

theorem holdingAfter_frame {op : Op} (h : isScoping op = false) (ans : Ans op) :
    holdingAfter φ op ans = φ := by
  cases op <;> first | rfl | cases h

theorem obeys_bare (hφ : φ.Bare) {p : RegistryProg α} (h : p.All (isScoping · = false) R) :
    Obeys holdingProtocol (fun a ψ => R a ∧ ψ = φ) p φ :=
  obeys_quiet (fun _ hop => ⟨fun _ => hφ, holdingAfter_frame hop⟩) (fun _ ha => ⟨ha, rfl⟩) h

theorem obeys_scope (lock : Lock) (op : Op) (hl : lock ∉ φ.locks) (hs : isScoping op = false)
    (hu : isUpstream op = false) :
    Obeys holdingProtocol (fun _ ψ => ψ = φ) (withLock lock (doing op)) φ := by
  refine ⟨fun h => Bool.noConfusion h, fun _ =>
    ⟨fun h => absurd (hu.symm.trans h) (by simp), fun ans => ?_⟩⟩
  refine ⟨fun h => Bool.noConfusion h, fun _ => ?_⟩
  have hfilter : (lock :: φ.locks).filter (· != lock) = φ.locks := by
    rw [List.filter_cons_of_neg (by simp), List.filter_eq_self]
    intro other hin
    have hne : other ≠ lock := fun heq => hl (heq ▸ hin)
    simpa using hne
  change holdingAfter (holdingAfter (holdingAfter φ (.acquire lock) ()) op ans) (.release lock) () = φ
  rw [holdingAfter_frame hs]
  simp only [holdingAfter, hfilter]

theorem unscoped_resolution {op : Op} (h : isResolution op = true) : isScoping op = false := by
  cases op <;> first | rfl | cases h

theorem connect_unscoped (config : ServerConfig) (env headers : TextMap Text) :
    (connect server config env headers).All (isScoping · = false) (Fails fun _ => True) := by
  refine all_mono (fun op hop => ?_) (fun _ h => h)
    (connect_starts (fun _ => trivial) config env headers)
  cases op <;> first | rfl | exact hop.elim

/-- Whatever comes, the task holds what it held. -/
abbrev Keeps {α : Type} (φ : Holding) : Outcome α → Holding → Prop :=
  Comes (fun _ ψ => ψ = φ) fun _ ψ => ψ = φ

theorem holding_attempt {guard : ℕ} (config : ServerConfig) (env headers : TextMap Text) :
    Obeys holdingProtocol (Keeps ⟨[.init guard], none⟩)
      (attempt server config env headers) ⟨[.init guard], none⟩ := by
  rw [attempt_eq]
  refine ⟨fun h => Bool.noConfusion h, fun _ => obeys_bind (obeys_mono (fun out ψ hψ => ?_)
    (obeys_bare (Or.inr ⟨guard, server, rfl, rfl⟩)
      (timed_all rfl (connect_unscoped config env headers))))⟩
  refine ⟨fun h => Bool.noConfusion h, fun _ => comes_same.mpr ?_⟩
  rw [hψ.2]
  rfl

theorem quiet_resolution {op : Op} (h : isResolution op = true) :
    holdingProtocol.may φ op ∧ ∀ ans, holdingAfter φ op ans = φ := by
  refine ⟨fun hup => ?_, holdingAfter_frame (unscoped_resolution h)⟩
  cases op <;> first | (cases hup; done) | cases h

theorem holding_connectAbsent (config : TomlConfig) {guard : ℕ} :
    Obeys holdingProtocol (Keeps ⟨[.init guard], none⟩) (connectAbsent config server)
      ⟨[.init guard], none⟩ := by
  refine connectAbsent_walk (fun _ => quiet_resolution) (fun _ => rfl) (fun _ => rfl)
    (fun _ => rfl) (fun serverConfig env headers _ => holding_attempt serverConfig env headers) ?_
  rintro entry _ rfl
  exact obeys_scope _ _ (by simp) rfl rfl

theorem holding_lookup (hφ : Lock.entriesRead ∉ φ.locks) :
    Obeys holdingProtocol (Finds (fun _ ψ => ψ = φ) (· = φ)) (lookupEntry server) φ := by
  refine obeys_mono (fun found ψ hψ => ?_)
    (obeys_scope .entriesRead (.entriesGet server) hφ rfl rfl)
  cases found <;> exact hψ

theorem holding_getOrConnect (config : TomlConfig) :
    Obeys holdingProtocol (Keeps {}) (getOrConnect config server) {} := by
  have hguard : ∀ ψ, ψ = {} → Obeys holdingProtocol (fun _ χ => χ = {})
      (withLock .initGuards (doing (.guardEntry server))) ψ := by
    rintro _ rfl
    exact obeys_scope .initGuards (.guardEntry server) (by simp) rfl rfl
  refine getOrConnect_walk (holding_lookup (by simp)) hguard ?_
  rintro guard _ rfl
  rw [withLock_eq]
  refine ⟨fun h => Bool.noConfusion h, fun _ => obeys_bind (obeys_mono (fun out ψ hψ => ?_)
    (?_ : Obeys holdingProtocol (Keeps ⟨[.init guard], none⟩)
      (connectGuarded config server) ⟨[.init guard], none⟩))⟩
  · refine ⟨fun h => Bool.noConfusion h, fun _ => comes_same.mpr ?_⟩
    rw [comes_same.mp hψ]
    change holdingAfter ⟨[.init guard], none⟩ (.release (.init guard)) () = {}
    simp [holdingAfter]
  · refine connectGuarded_walk (holding_lookup (by simp)) ?_
    rintro _ rfl
    exact holding_connectAbsent config

theorem bare_idle : Holding.Bare {} := Or.inl rfl

theorem holding_ensureFresh (entry : Entry) :
    Obeys holdingProtocol (Keeps {}) (ensureFresh entry server) {} := by
  refine ⟨fun h => Bool.noConfusion h, fun dirty => ?_⟩
  cases dirty with
  | false => rfl
  | true =>
    refine ⟨fun h => Bool.noConfusion h, fun was => ?_⟩
    cases was with
    | false => rfl
    | true =>
      have hfetch : (fetchTools entry).All (isScoping · = false) (fun _ => True) :=
        ⟨rfl, fun _ => ⟨rfl, fun _ => trivial⟩⟩
      refine obeys_bind (p := timed (fetchTools entry)) (obeys_mono (fun out ψ hψ => ?_)
        (obeys_bare bare_idle (timed_all rfl hfetch)))
      rw [hψ.2]
      rcases out with _ | e | fresh
      · exact ⟨fun h => Bool.noConfusion h, fun _ => rfl⟩
      · exact ⟨fun h => Bool.noConfusion h, fun _ => rfl⟩
      · exact obeys_bind (obeys_scope _ _ (by simp) rfl rfl)

theorem holding_refresh (entry : EntryOf server) (ψ : Holding) (hψ : ψ = {}) :
    Obeys holdingProtocol (Keeps {}) (ensureFresh entry.1 server) ψ :=
  hψ ▸ holding_ensureFresh entry.1

theorem holding_read (entry : EntryOf server) (ψ : Holding) (hψ : ψ = {}) :
    Obeys holdingProtocol (fun _ χ => χ = {}) (readInventory entry.1) ψ := by
  rw [hψ]
  exact obeys_scope _ _ (by simp) rfl rfl

theorem holding_inventory (config : TomlConfig) :
    Obeys holdingProtocol (Keeps {}) (inventory config server) {} :=
  inventory_walk (holding_getOrConnect config) holding_refresh holding_read fun _ _ _ h => h

theorem holding_callTool (config : TomlConfig) (tool : Text) (arguments : Option JsonObject) :
    Obeys holdingProtocol (Keeps {}) (callTool config server tool arguments) {} := by
  refine callTool_walk (holding_getOrConnect config) holding_refresh holding_read
    (fun _ _ _ h => h) ?_
  rintro entry _ _ rfl _
  have hforward : (forwardCall entry.1 tool arguments).All (isScoping · = false) (fun _ => True) :=
    ⟨rfl, fun _ => ⟨rfl, fun _ => trivial⟩⟩
  refine obeys_mono (fun out ψ hψ => ?_) (obeys_bare bare_idle (timed_all rfl hforward))
  rcases out with _ | e | result <;> exact hψ.2

theorem holding_serveCall (config : TomlConfig) (call : Call) :
    Obeys holdingProtocol (fun _ ψ => ψ = {}) (serveCall config call) {} := by
  cases call with
  | connect server =>
    exact obeys_bind (obeys_mono (fun _ _ => comes_same.mp) (holding_getOrConnect config))
  | inventory server =>
    exact obeys_bind (obeys_mono (fun _ _ => comes_same.mp) (holding_inventory config))
  | callTool server tool arguments =>
    exact obeys_bind (obeys_mono (fun _ _ => comes_same.mp) (holding_callTool config tool arguments))

end Holding

section Targets

def Call.server : Call → Text
  | .connect server | .inventory server | .callTool server _ _ => server

def For (server : Text) (op : Op) : Prop := ∀ s, subject op = some s → s = server

variable {server : Text} {config : TomlConfig}

theorem for_silent {op : Op} (h : subject op = none) (server : Text) : For server op :=
  fun _ hs => absurd (h.symm.trans hs) (by simp)

theorem for_callTool (tool : Text) (arguments : Option JsonObject) :
    (callTool config server tool arguments).All (For server) (Fails fun _ => True) := by
  refine fails_only.mp (callTool_walk
    (fails_only.mpr (all_mono (fun _ h => h.1) (fun _ _ _ _ => trivial) (getOrConnect_all config)))
    (fun entry _ _ => fails_only.mpr
      (all_mono (fun _ h => h.1) (fun _ _ _ _ => trivial) (ensureFresh_all config entry.2)))
    (fun entry _ _ => obeys_only.mpr
      (all_mono (fun _ h => h.1) (fun _ _ => trivial) (readInventory_all entry.2)))
    (fun _ _ _ _ => trivial) fun entry _ _ _ _ => ?_)
  have hentry : For server (.callReply entry.1) :=
    fun s hs => (Option.some.inj hs).symm.trans entry.2
  have hforward : (forwardCall entry.1 tool arguments).All (For server) (fun _ => True) :=
    ⟨hentry, fun _ => ⟨hentry, fun _ => trivial⟩⟩
  refine obeys_mono (fun out _ _ => ?_)
    (obeys_only.mpr (timed_all (for_silent rfl server) hforward))
  rcases out with _ | e | result <;> trivial

theorem for_serveCall (call : Call) :
    (serveCall config call).All (For (Call.server call)) (fun _ => True) := by
  cases call with
  | connect server =>
    exact all_bind (all_mono (fun _ h => h.1) (fun _ _ => trivial) (getOrConnect_all config))
  | inventory server =>
    exact all_bind (all_mono (fun _ h => h.1) (fun _ _ => trivial) (inventory_all config))
  | callTool server tool arguments =>
    exact all_bind (all_mono (fun _ h => h) (fun _ _ => trivial) (for_callTool tool arguments))

theorem named_for {φ : Trail} {op : Op} (hop : For server op)
    (hφ : ∀ s g, φ.named = some (s, g) → s = server) (ans : Ans op) :
    ∀ s g, (after φ op ans).named = some (s, g) → s = server := by
  cases op <;> first
    | exact hφ
    | (cases ans <;> exact hφ)
    | skip
  case guardEntry other =>
    intro s g hs
    cases hs
    exact hop other rfl
  case abandon =>
    rintro s g ⟨⟩

variable {tools : Entry → List Tool}
  {K : List (Event registryWorld (registryService config)) → Shared →
    Event registryWorld (registryService config) → Prop}
  {es : List (Event registryWorld (registryService config))}
  {σ : System registryWorld (registryService config)}

theorem named_server (h : Run (Shared.initial tools) K es σ) {i : ℕ} {call : Call}
    {p : RegistryProg Answer} (hi : σ.tasks i = some (call, p)) {s : Text} {g : ℕ}
    (hn : (trail registryProtocol i es).named = some (s, g)) : s = Call.server call := by
  have hfollows := run_follows (P := registryProtocol) (G := fun _ _ => True) (i := i)
    (T := fun (call : Call) (p : RegistryProg Answer) (φ : Trail) =>
      p.All (For (Call.server call)) (fun _ => True) ∧
        ∀ s g, φ.named = some (s, g) → s = Call.server call)
    (fun _ _ _ _ ans ht _ => ⟨ht.1.2 ans, named_for ht.1.1 ht.2 ans⟩)
    (fun _ _ _ _ _ _ _ => trivial) (fun call => ⟨for_serveCall call, by rintro s g ⟨⟩⟩) h hi
  exact hfollows.2 s g hn

structure Distinct (σ : Shared) : Prop where
  fresh : ∀ s g, σ.initGuards s = some g → g < σ.guards
  injective : ∀ s s' g, σ.initGuards s = some g → σ.initGuards s' = some g → s = s'

theorem distinct_nameGuard {σ : Shared} (h : Distinct σ) (s : Text) :
    Distinct (σ.nameGuard s ((σ.initGuards s).getD σ.guards)) := by
  cases hs : σ.initGuards s with
  | some g =>
    have hsame : σ.nameGuard s g = σ := by
      have hupdate : Function.update σ.initGuards s (some g) = σ.initGuards :=
        Function.update_eq_self_iff.mpr hs.symm
      simp [Shared.nameGuard, hs, hupdate]
    rw [Option.getD_some, hsame]
    exact h
  | none =>
    rw [Option.getD_none]
    constructor
    · intro other g hg
      rcases eq_or_ne other s with rfl | hne
      · simp [Shared.nameGuard, hs] at hg ⊢
        omega
      · simp [Shared.nameGuard, hs, hne] at hg ⊢
        have hfresh := h.fresh other g hg
        omega
    · intro a b g ha hb
      rcases eq_or_ne a s with rfl | hna
      · rcases eq_or_ne b a with rfl | hnb
        · rfl
        · simp [Shared.nameGuard, hnb] at ha hb
          exact absurd (h.fresh b g hb) (by omega)
      · rcases eq_or_ne b s with rfl | hnb
        · simp [Shared.nameGuard, hna] at ha hb
          exact absurd (h.fresh a g ha) (by omega)
        · simp [Shared.nameGuard, hna, hnb] at ha hb
          exact h.injective a b g ha hb

theorem distinct_congr {σ σ' : Shared} (h : Distinct σ) (hg : σ'.initGuards = σ.initGuards)
    (hn : σ'.guards = σ.guards) : Distinct σ' := by
  constructor
  · rw [hg, hn]
    exact h.fresh
  · rw [hg]
    exact h.injective

theorem distinct_act {σ : Shared} (h : Distinct σ) {i : ℕ} {op : Op} {ans : Ans op}
    (ha : Answers i σ op ans) : Distinct (effect i σ op ans) := by
  cases op <;> first
    | exact distinct_congr h rfl rfl
    | (cases ans <;> exact distinct_congr h rfl rfl)
    | skip
  case guardEntry server =>
    have hans : ans = (σ.initGuards server).getD σ.guards := ha
    rw [hans]
    exact distinct_nameGuard h server

theorem distinct_run (h : Run (Shared.initial tools) K es σ) : Distinct σ.shared := by
  refine run_preserved (J := fun _ σ => Distinct σ) (obeys_serveCall config) ?_ h
  refine ⟨⟨by simp [Shared.initial], by simp [Shared.initial]⟩, fun _ _ _ _ hJ _ => hJ,
    fun _ _ _ _ _ _ hJ _ _ hp => ?_, fun _ _ _ _ _ hJ _ => hJ, fun _ _ _ hJ _ => ?_,
    fun _ _ e _ hJ _ ho => ?_⟩
  · rw [hp.2]
    exact distinct_act hJ hp.1
  · exact distinct_congr hJ rfl rfl
  · obtain ⟨_, hg, _, hn⟩ := outside_frame ho
    exact distinct_congr hJ hg hn

end Targets

section Discipline

inductive Object where
  | entries
  | initGuards
  | init (guard : ℕ)
  | tools (entry : Entry)

def object : Lock → Object
  | .entriesRead | .entriesWrite => .entries
  | .initGuards => .initGuards
  | .init guard => .init guard
  | .toolsRead entry | .toolsWrite entry => .tools entry

def level : Object → ℕ
  | .init _ => 1
  | _ => 0

theorem conflicts_object {l m : Lock} (h : m ∈ conflicts l) : object l = object m := by
  cases l <;> simp [conflicts] at h <;> rcases h with rfl | rfl <;> rfl

theorem object_init {l : Lock} {guard : ℕ} (h : object l = .init guard) : l = .init guard := by
  cases l <;> simp_all [object]

theorem level_init {l : Lock} (h : isInit l = true) : level (object l) = 1 := by
  cases l <;> first | rfl | cases h

theorem level_other {l : Lock} (h : isInit l = false) : level (object l) = 0 := by
  cases l <;> first | rfl | cases h

abbrev Tasks (config : TomlConfig) := System registryWorld (registryService config)

variable {config : TomlConfig}

def wants (σ : Tasks config) (i : ℕ) : Option Lock :=
  match σ.tasks i with
  | some (_, .act (.acquire lock) _) => some lock
  | _ => none

def allocation (σ : Tasks config) (ahead : ℕ → ℕ → Prop) : Allocation ℕ Lock Object where
  object := object
  conflicts l m := m ∈ conflicts l
  wants := wants σ
  holds i lock := i ∈ σ.shared.holders lock
  ahead := ahead

theorem wants_some {σ : Tasks config} {i : ℕ} {lock : Lock} (h : wants σ i = some lock) :
    ∃ call next, σ.tasks i = some (call, .act (.acquire lock) next) := by
  rw [wants] at h
  split at h
  · rename_i call other next hi
    cases h
    exact ⟨call, next, hi⟩
  · cases h

def Suspended (σ : Tasks config) (i : ℕ) (call : Call) : Prop :=
  ∃ op next, σ.tasks i = some (call, .act op next) ∧ isUpstream op = true

theorem suspended_wants {σ : Tasks config} {i : ℕ} {call : Call} (h : Suspended σ i call) :
    wants σ i = none := by
  obtain ⟨op, next, hi, hop⟩ := h
  rw [wants, hi]
  cases op <;> first | rfl | cases hop

variable {tools : Entry → List Tool}
  {K : List (Event registryWorld (registryService config)) → Shared →
    Event registryWorld (registryService config) → Prop}
  {es : List (Event registryWorld (registryService config))} {σ : Tasks config} {i : ℕ} {call : Call}

theorem consistent_of_run (h : Run (Shared.initial tools) K es σ) :
    Consistent (fun i => trail registryProtocol i es) σ.shared :=
  run_consistent (obeys_serveCall config) (fun _ _ _ hserved => hserved.clean) h

theorem holding_trail (i : ℕ) (es : List (Event registryWorld (registryService config))) :
    trail holdingProtocol i es = ⟨(trail registryProtocol i es).locks,
      (trail registryProtocol i es).attempt⟩ := by
  have hafter : ∀ (φ : Trail) (op : Op) (ans : Ans op),
      (⟨(after φ op ans).locks, (after φ op ans).attempt⟩ : Holding) =
        holdingAfter ⟨φ.locks, φ.attempt⟩ op ans := by
    intro φ op ans
    cases op <;> first | rfl | (cases ans <;> rfl)
  exact (@trail_map _ _ _ registryProtocol holdingProtocol
    (fun φ => ⟨φ.locks, φ.attempt⟩) rfl hafter i es).symm

theorem suspended_holds (h : Run (Shared.initial tools) K es σ) (hi : Suspended σ i call)
    {lock : Lock} (hl : i ∈ σ.shared.holders lock) : ∃ guard, lock = .init guard ∧
      σ.shared.initGuards (Call.server call) = some guard ∧
      σ.shared.entries (Call.server call) = none := by
  obtain ⟨op, next, htask, hop⟩ := hi
  have hc := consistent_of_run h
  have hbare := (run_obeys (P := holdingProtocol) (holding_serveCall config) h htask).1 hop
  have hin := (hc.held i lock).mp hl
  rw [holding_trail] at hbare
  rcases hbare with hnone | ⟨guard, server, hlocks, hattempt⟩
  · rw [show (trail registryProtocol i es).locks = [] from hnone] at hin
    cases hin
  · obtain ⟨hguarding, habsent⟩ := hc.absent i server (hc.attempt i server hattempt)
    obtain ⟨other, hnamed, hheld⟩ := guarding_iff.mp hguarding
    rw [show (trail registryProtocol i es).locks = [.init guard] from hlocks,
      List.mem_singleton] at hin hheld
    cases hheld
    rw [← named_server h htask hnamed]
    exact ⟨guard, hin, hc.named i server guard hnamed, habsent⟩

theorem allocation_leveled (h : Run (Shared.initial tools) K es σ) (ahead : ℕ → ℕ → Prop) :
    Leveled (allocation σ ahead) level := by
  constructor
  · intro l m hconflict
    exact conflicts_object hconflict
  · intro i l m hwants hheld
    obtain ⟨call, next, htask⟩ := wants_some hwants
    have hmay := (run_obeys (obeys_serveCall config) h htask).1
    have hin := ((consistent_of_run h).held i m).mp hheld
    cases hl : isInit l with
    | true =>
      cases l with
      | init guard =>
        rw [hmay.1] at hin
        cases hin
      | _ => cases hl
    | false =>
      have hinit : isInit m = true := by
        cases l <;> first | exact hmay m hin | cases hl
      change level (object l) < level (object m)
      rw [level_other hl, level_init hinit]
      exact Nat.zero_lt_one

theorem wants_init (h : Run (Shared.initial tools) K es σ) {j guard : ℕ} {other : Call}
    {p : RegistryProg Answer} (hj : σ.tasks j = some (other, p))
    (hwants : wants σ j = some (.init guard)) :
    σ.shared.initGuards (Call.server other) = some guard ∧ ∀ lock, j ∉ σ.shared.holders lock := by
  obtain ⟨call, next, htask⟩ := wants_some hwants
  rw [htask] at hj
  cases hj
  have hc := consistent_of_run h
  obtain ⟨hlocks, server, hnamed⟩ := (run_obeys (obeys_serveCall config) h htask).1
  constructor
  · rw [← named_server h htask hnamed]
    exact hc.named j server guard hnamed
  · intro lock hheld
    have hin := (hc.held j lock).mp hheld
    rw [hlocks] at hin
    cases hin

structure Disciplined (σ : Tasks config) : Prop where
  guards : ∀ s s' guard, σ.shared.initGuards s = some guard → σ.shared.initGuards s' = some guard → s = s'
  holds : ∀ i call lock, Suspended σ i call → i ∈ σ.shared.holders lock →
    ∃ guard, lock = .init guard ∧ σ.shared.initGuards (Call.server call) = some guard
  acyclic : ∀ ahead, Queued ahead → ∀ i, ¬ Awaits (allocation σ ahead) i i
  unaffected : ∀ ahead i call j other p, Suspended σ i call → σ.tasks j = some (other, p) →
    (Call.server other ≠ Call.server call ∨ σ.shared.entries (Call.server other) ≠ none) →
    ¬ Awaits (allocation σ ahead) j i

/-- In every run, whatever the upstreams do: a task that waits for an upstream
holds at most the init guard of its server, no task waits for itself, and for a
task that waits for an upstream no task waits but one for the same server, while
that is not connected. -/
theorem lock_discipline (config : TomlConfig) (tools : Entry → List Tool)
    {K : List (Event registryWorld (registryService config)) → Shared →
      Event registryWorld (registryService config) → Prop}
    {es : List (Event registryWorld (registryService config))} {σ : Tasks config}
    (h : Run (Shared.initial tools) K es σ) : Disciplined σ := by
  refine ⟨(distinct_run h).injective, fun i call lock hi hl => ?_,
    fun ahead hq i => waits_acyclic (allocation_leveled h ahead) hq i, ?_⟩
  · obtain ⟨guard, hlock, hguard, _⟩ := suspended_holds h hi hl
    exact ⟨guard, hlock, hguard⟩
  · intro ahead i call j other p hi hj hother hawaits
    have htop : ∀ l m n k, i ∈ σ.shared.holders m → wants σ k = some l → object l = object m →
        k ∉ σ.shared.holders n := by
      intro l m n k hheld hwants hsame
      obtain ⟨guard, rfl, _⟩ := suspended_holds h hi hheld
      obtain rfl := object_init hsame
      obtain ⟨_, _, htask⟩ := wants_some hwants
      exact (wants_init h htask hwants).2 n
    obtain ⟨l, m, hwants, hheld, hsame⟩ :=
      awaits_top (allocation_leveled h ahead) (suspended_wants hi) htop hawaits
    obtain ⟨guard, rfl, hguard, habsent⟩ := suspended_holds h hi hheld
    obtain rfl := object_init hsame
    have hserver := (distinct_run h).injective _ _ guard (wants_init h hj hwants).1 hguard
    rcases hother with hne | hconnected
    · exact hne hserver
    · exact hconnected (hserver ▸ habsent)

/-- A task hangs in a handshake, and another is queued behind its guard. -/
def hang : List (Choice (registryService probeConfig) Hint Outside) :=
  .spawn 0 (.connect "s".toList) :: acts probeConfig 0 13 ++
    .spawn 1 (.inventory "s".toList) :: acts probeConfig 1 6

def hanging (σ : Tasks probeConfig) : Bool :=
  (match σ.tasks 0 with
    | some (_, .act (.serve _) _) => true
    | _ => false) && (σ.shared.holders (.init 0)).contains 0 && wants σ 1 == some (.init 0)

theorem hang_runs : ∃ es σ, Run (W := registryWorld) (V := registryService probeConfig)
    (Shared.initial probeTools) (fun _ _ _ => true = true) es σ ∧ hanging σ = true :=
  playAll_reaches responder hang (by decide)

theorem lock_discipline_hang : ∃ (es : List (Event registryWorld (registryService probeConfig)))
    (σ : Tasks probeConfig), Run (Shared.initial probeTools) (fun _ _ _ => True) es σ ∧
      hanging σ = true ∧ Disciplined σ := by
  obtain ⟨es, σ, hr, hs⟩ := hang_runs
  exact ⟨es, σ, run_weaken (fun _ _ _ _ => trivial) hr, hs, lock_discipline probeConfig probeTools hr⟩

end Discipline

end FaninMcp.LockDiscipline
