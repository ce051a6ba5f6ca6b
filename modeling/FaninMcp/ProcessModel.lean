import FaninMcp.Foundation.SharedOwnership
import FaninMcp.MetaAcl
import FaninMcp.RegistryWalk

/-!
# The processes of the upstreams

A stdio upstream runs in a process group of its own. The guard over the group is
a local of the connect future until the entry takes it over, and an entry is
shared by the registry's map and the tasks that use it. Wherever a guard is
dropped its group is killed, and nowhere else.
-/

set_option autoImplicit false

namespace FaninMcp.ProcessModel
open Foundation.RustText Foundation.JsonText Foundation.AsyncPrograms Foundation.SharedOwnership
  FaninMcp.ConfigModel FaninMcp.ErrorModel FaninMcp.RegistryModel FaninMcp.RegistryWorld
  FaninMcp.RegistryProtocol FaninMcp.RegistryWalk FaninMcp.MetaAcl

/-- Who has an `Arc<UpstreamEntry>`. -/
inductive Holder where
  | map
  | task (i : ℕ)
  deriving DecidableEq

/-- The groups that were spawned, the `containment` of each task's connect future
and of each entry, and the groups that were killed. -/
abbrev Processes := Estate ℕ Entry Holder

def ofTask (i : ℕ) (handle : Holder × Entry) : Bool := handle.1 = .task i

def ofMap (handle : Holder × Entry) : Bool := handle.1 = .map

/-- The handle that `HashMap::insert` replaces. -/
def mappedFor (server : Text) (handle : Holder × Entry) : Bool :=
  ofMap handle && handle.2.server = server

/-- The end of a task, or of the future it runs, takes its locals with it. -/
def dropTask (π : Processes) (i : ℕ) : Processes := (π.clear i).drop (ofTask i)

/-- What an operation does to the processes. The connect future is gone at the end
of its attempt, however it ended. -/
def tend (i : ℕ) (π : Processes) : (op : Op) → Ans op → Processes
  | .spawnTransport _, .ok _ => π.acquire i
  | .newEntry entry _, _ => π.box i entry (.task i)
  | .connectEnd _, _ => π.clear i
  | .entriesGet _, some entry => π.share (.task i) entry.1
  | .entriesInsert server entry, _ => (π.drop (mappedFor server)).share .map entry.1
  | .abandon, _ => dropTask π i
  | _, _ => π

def processes {W : World registryOps} {V : Service registryOps} : List (Event W V) → Processes
  | [] => {}
  | .act i op ans::es => tend i (processes es) op ans
  | .finish i _ _::es => dropTask (processes es) i
  | .drop i::es => dropTask (processes es) i
  | .spawn _ _::es => processes es
  | .outside _::es => processes es

/-- `drop(registry)`. -/
def dropRegistry (π : Processes) : Processes := π.drop ofMap

section Building

/-- The connection a task has served and not yet made an entry of, and the entry it
made last. -/
structure Building where
  served : Option Entry := none
  built : Option Entry := none

def buildAfter (φ : Building) : (op : Op) → Ans op → Building
  | .serve _, .ok entry => { φ with served := some entry.1 }
  | .newEntry entry _, _ => ⟨none, some entry⟩
  | .abandon, _ => {}
  | _, _ => φ

def mayBuild (φ : Building) : Op → Prop
  | .newEntry entry _ => φ.served = some entry
  | .entriesInsert _ entry => φ.built = some entry.1
  | _ => True

abbrev building : Protocol registryOps := ⟨Building, {}, mayBuild, buildAfter⟩

def Plain : Op → Prop
  | .serve _ | .newEntry _ _ | .entriesInsert _ _ | .abandon => False
  | _ => True

theorem plain_may {φ : Building} {op : Op} (h : Plain op) : mayBuild φ op := by
  cases op <;> first | exact trivial | exact h.elim

theorem plain_after {φ : Building} {op : Op} (h : Plain op) (ans : Ans op) :
    buildAfter φ op ans = φ := by
  cases op <;> first | rfl | exact h.elim

theorem refreshes_plain {op : Op} (h : Refreshes op) : Plain op := by
  cases op <;> first | exact trivial | exact h.elim

theorem resolution_plain {op : Op} (h : isResolution op = true) : Plain op := by
  cases op <;> first | exact trivial | cases h

variable {α : Type} {post : α → Building → Prop} {φ : Building} {server : Text}

theorem obeys_plain {Q : Op → Prop} {R : α → Prop} {p : RegistryProg α}
    (hQ : ∀ op, Q op → Plain op) (hpost : ∀ a, R a → post a φ) (h : p.All Q R) :
    Obeys building post p φ :=
  obeys_quiet (fun op hq => ⟨plain_may (hQ op hq), plain_after (hQ op hq)⟩) hpost h

abbrev Any {α : Type} : Outcome α → Building → Prop := Comes (fun _ _ => True) fun _ _ => True

theorem obeys_any {Q : Op → Prop} {R : Outcome α → Prop} {p : RegistryProg (Outcome α)}
    (hQ : ∀ op, Q op → Plain op) (h : p.All Q R) : Obeys building Any p φ :=
  obeys_plain hQ (fun out _ => by cases out <;> trivial) h

abbrev Made : Outcome (EntryOf server) → Building → Prop :=
  Comes (fun entry φ => φ.built = some entry.1) fun _ _ => True

theorem resolution_building (op : Op) (h : isResolution op = true) :
    building.may φ op ∧ ∀ ans, building.after φ op ans = φ :=
  ⟨plain_may (resolution_plain h), plain_after (resolution_plain h)⟩

theorem obeys_startService (config : ServerConfig) (env headers : TextMap Text) : Obeys building
    (Comes (fun entry ψ => ψ.served = some entry.1) fun _ _ => True)
    (startService server config env headers) φ := by
  refine startService_walk config env headers
    (fun op hop => resolution_building op (preparation_resolution hop)) (fun _ => trivial)
    ⟨trivial, fun _ => rfl⟩ (fun _ _ _ => trivial) ⟨trivial, fun out => ?_⟩
  cases out with
  | error e => exact trivial
  | ok entry => exact rfl

theorem obeys_connect (config : ServerConfig) (env headers : TextMap Text) :
    Obeys building Made (connect server config env headers) φ := by
  refine obeys_except (obeys_startService config env headers) (fun _ _ _ => trivial)
    fun entry ψ hψ => ⟨trivial, fun _ => ⟨trivial, fun reply => ?_⟩⟩
  cases reply with
  | error e => exact trivial
  | ok tools => exact ⟨hψ, fun _ => rfl⟩

theorem obeys_attempt (config : ServerConfig) (env headers : TextMap Text) :
    Obeys building Made (attempt server config env headers) φ := by
  rw [attempt_eq]
  have htimed : Obeys building (Finds Made fun _ => True)
      (timed (connect server config env headers)) φ :=
    obeys_interruptible_anywhere (fun _ => trivial) (fun _ _ => rfl) (fun _ => trivial)
      (obeys_bind (obeys_connect config env headers))
  exact ⟨trivial, fun _ => obeys_option htimed (fun _ _ hmade => ⟨trivial, fun _ => hmade⟩)
    fun _ _ => ⟨trivial, fun _ => trivial⟩⟩

variable (config : TomlConfig)

theorem obeys_connectAbsent : Obeys building Any (connectAbsent config server) φ :=
  connectAbsent_walk resolution_building (fun _ => trivial) (fun _ => trivial) (fun _ => trivial)
    (fun serverConfig env headers _ => obeys_attempt serverConfig env headers)
    fun _ _ hbuilt => ⟨trivial, fun _ => ⟨hbuilt, fun _ => ⟨trivial, fun _ => trivial⟩⟩⟩

theorem obeys_lookupEntry (server : Text) :
    Obeys building (Finds (fun _ _ => True) fun _ => True) (lookupEntry server) φ := by
  refine ⟨trivial, fun _ => ⟨trivial, fun found => ⟨trivial, fun _ => ?_⟩⟩⟩
  cases found <;> trivial

theorem obeys_getOrConnect : Obeys building Any (getOrConnect config server) φ := by
  have hguard : ∀ ψ, Obeys building (fun _ _ => True)
      (withLock .initGuards (doing (.guardEntry server))) ψ :=
    fun _ => ⟨trivial, fun _ => ⟨trivial, fun _ => ⟨trivial, fun _ => trivial⟩⟩⟩
  refine getOrConnect_walk (obeys_lookupEntry server) (fun ψ _ => hguard ψ) fun guard ψ _ => ?_
  rw [withLock_eq]
  refine ⟨trivial, fun _ => obeys_bind (obeys_mono (fun out χ _ => ⟨trivial, fun _ => ?_⟩)
    (connectGuarded_walk (obeys_lookupEntry server) fun _ _ => obeys_connectAbsent config))⟩
  cases out <;> trivial

theorem obeys_inventory : Obeys building Any (inventory config server) φ :=
  inventory_walk (obeys_getOrConnect config)
    (fun entry _ _ => obeys_any (fun _ h => refreshes_plain h)
      (ensureFresh_refreshes entry.1 server))
    (fun entry _ _ => obeys_plain (fun _ h => refreshes_plain h) (fun _ _ => trivial)
      (readInventory_refreshes entry.1)) fun _ _ _ _ => trivial

theorem obeys_callTool (tool : Text) (arguments : Option JsonObject) :
    Obeys building Any (callTool config server tool arguments) φ := by
  refine callTool_walk (obeys_getOrConnect config)
    (fun entry _ _ => obeys_any (fun _ h => refreshes_plain h)
      (ensureFresh_refreshes entry.1 server))
    (fun entry _ _ => obeys_plain (fun _ h => refreshes_plain h) (fun _ _ => trivial)
      (readInventory_refreshes entry.1)) (fun _ _ _ _ => trivial) fun entry _ _ _ _ => ?_
  have hforward : (forwardCall entry.1 tool arguments).All Plain (fun _ => True) :=
    ⟨trivial, fun _ => ⟨trivial, fun _ => trivial⟩⟩
  refine obeys_plain (fun _ h => h) (fun out _ => ?_) (timed_all trivial hforward)
  rcases out with _ | e | result <;> trivial

theorem serveCall_builds (call : Call) :
    Obeys building (fun _ _ => True) (serveCall config call) {} := by
  cases call with
  | connect server =>
    exact obeys_bind (obeys_mono (fun _ _ _ => trivial) (obeys_getOrConnect config))
  | inventory server =>
    exact obeys_bind (obeys_mono (fun _ _ _ => trivial) (obeys_inventory config))
  | callTool server tool arguments =>
    exact obeys_bind (obeys_mono (fun _ _ _ => trivial) (obeys_callTool config tool arguments))

theorem obeys_listRows (active : NamespaceAcl.ActiveNamespace) (servers : List Text) :
    Obeys building (fun _ _ => True) (MetaTools.listRows config active servers []) φ :=
  have hinventory : ∀ server ∈ servers, ∀ ψ, True →
      Obeys building Any (inventory config server) ψ := fun _ _ _ _ => obeys_inventory config
  listRows_walk servers hinventory (fun _ _ _ => trivial) (fun _ _ _ => trivial)
    (fun _ _ _ => trivial) [] trivial

theorem obeys_invokeRaced (tool : Text) (arguments : JsonObject) :
    Obeys building (fun _ _ => True) (MetaTools.invokeRaced config server tool arguments) φ :=
  obeys_interruptible_anywhere (fun _ => trivial) (fun _ _ => rfl)
    (fun _ => ⟨trivial, fun _ => trivial⟩)
    (obeys_except (obeys_callTool config tool (some arguments)) (fun _ _ _ => trivial)
      fun _ _ _ => trivial)

theorem dispatch_builds (active : NamespaceAcl.ActiveNamespace) (request : MetaTools.Request) :
    Obeys building (fun _ _ => True) (MetaTools.dispatchTool (.withRegistry config active) request)
      {} := by
  have hhandled := @dispatch_handled config active request
  generalize MetaTools.dispatchTool _ request = p at hhandled ⊢
  cases hhandled with
  | refused e => exact trivial
  | listing servers visible => exact obeys_listRows config active servers
  | schema name server tool _ _ _ =>
    exact obeys_bind (obeys_mono (fun _ _ _ => trivial) (obeys_inventory config))
  | call server tool raw _ _ => exact obeys_invokeRaced config tool raw

end Building

end FaninMcp.ProcessModel
