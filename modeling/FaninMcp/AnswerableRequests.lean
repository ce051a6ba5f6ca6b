import FaninMcp.DiscoveryAgreement
import FaninMcp.StartupSufficiency

/-!
# Requests that can be answered

With every transport one of the two that are known, the arm that was thought
impossible is not reached. Every other operation has an answer with which things
go well, so that what is said of a request under such answers is said of
something.
-/

set_option autoImplicit false

namespace FaninMcp.AnswerableRequests
open Foundation.RustText Foundation.JsonText Foundation.AsyncPrograms FaninMcp.ConfigModel
  FaninMcp.ErrorModel FaninMcp.ConfigValidation FaninMcp.NamespaceAcl FaninMcp.RegistryModel
  FaninMcp.RegistryProtocol FaninMcp.RegistryWalk FaninMcp.MetaTools FaninMcp.MetaAcl
  FaninMcp.Discovery FaninMcp.DiscoveryAgreement FaninMcp.StartupSufficiency

section Answerable
variable {server : Text} {config : TomlConfig} {active : ActiveNamespace}

theorem expected_withLock {α : Type} {R : α → Prop} {lock : Lock} {body : RegistryProg α}
    (h : body.All Expected R) : (withLock lock body).All Expected R :=
  withLock_all (by rintro _ ⟨⟩) (by rintro _ ⟨⟩) h

/-- Whatever comes of it, nothing is done that is thought impossible. -/
abbrev Safely {α : Type} : Outcome α → Unit → Prop := Comes (fun _ _ => True) fun _ _ => True

theorem safely {α : Type} {R : Outcome α → Prop} {p : RegistryProg (Outcome α)}
    (h : p.All Expected R) : Obeys (Protocol.only Expected) Safely p () :=
  fails_only.mpr (all_mono (fun _ hop => hop) (fun _ _ _ _ => trivial) h)

theorem attempt_expected {serverConfig : ServerConfig} (env headers : TextMap Text)
    (h : ServerReady serverConfig) :
    Obeys (Protocol.only Expected) Safely (attempt server serverConfig env headers) () := by
  rw [attempt_eq]
  refine safely (R := fun _ => True) ⟨by rintro _ ⟨⟩, fun _ => all_bind (all_mono (fun _ hq => hq)
    (fun _ _ => ?_) (timed_all (by rintro _ ⟨⟩)
      (connect_expected (h.fields.imp And.left And.left))))⟩
  exact ⟨by rintro _ ⟨⟩, fun _ => trivial⟩

theorem connectAbsent_expected (hready : ∀ entry ∈ config.servers.entries, ServerReady entry.2) :
    Obeys (Protocol.only Expected) Safely (connectAbsent config server) () := by
  refine connectAbsent_walk (fun _ hop => ⟨expected_resolution hop, fun _ => rfl⟩)
    (fun _ => trivial) (fun _ => trivial) (fun _ => trivial)
    (fun serverConfig env headers hlookup => attempt_expected env headers
      (hready ⟨server, serverConfig⟩ (AList.mem_lookup_iff.mp hlookup))) fun _ _ _ => ?_
  exact obeys_only.mpr (expected_withLock ⟨by rintro _ ⟨⟩, fun _ => trivial⟩)

theorem lookupEntry_expected (server : Text) : Obeys (Protocol.only Expected)
    (Finds (fun _ _ => True) fun _ => True) (lookupEntry server) () := by
  have hall : (lookupEntry server).All Expected fun _ => True :=
    expected_withLock ⟨by rintro _ ⟨⟩, fun _ => trivial⟩
  refine obeys_mono (fun found _ _ => ?_) (obeys_only.mpr hall)
  cases found <;> trivial

theorem getOrConnect_expected (hready : ∀ entry ∈ config.servers.entries, ServerReady entry.2) :
    Obeys (Protocol.only Expected) Safely (getOrConnect config server) () := by
  have hguarded : (connectGuarded config server).All Expected (Fails fun _ => True) :=
    fails_only.mp (connectGuarded_walk (lookupEntry_expected server)
      fun _ _ => connectAbsent_expected hready)
  have hguard : (withLock .initGuards (doing (.guardEntry server))).All Expected fun _ => True :=
    expected_withLock ⟨by rintro _ ⟨⟩, fun _ => trivial⟩
  exact getOrConnect_walk (lookupEntry_expected server) (fun _ _ => obeys_only.mpr hguard)
    fun _ _ _ => safely (expected_withLock hguarded)

theorem refreshes_expected {op : Op} (h : Refreshes op) : Expected op := by
  rintro message rfl
  exact h

theorem inventory_expected (hready : ∀ entry ∈ config.servers.entries, ServerReady entry.2) :
    (inventory config server).All Expected (fun _ => True) :=
  all_mono (fun _ hop => hop) (fun _ _ => trivial) (fails_only.mp (inventory_walk
    (getOrConnect_expected hready)
    (fun entry _ _ => safely (all_mono (fun _ => refreshes_expected) (fun _ h => h)
      (ensureFresh_refreshes entry.1 server)))
    (fun entry _ _ => obeys_only.mpr (all_mono (fun _ => refreshes_expected) (fun _ h => h)
      (readInventory_refreshes entry.1))) fun _ _ _ _ => trivial))

theorem listRows_expected (hready : ∀ entry ∈ config.servers.entries, ServerReady entry.2)
    (servers : List Text) (rows : List Row) :
    (listRows config active servers rows).All Expected (fun _ => True) := by
  have hinventory : ∀ server ∈ servers, ∀ φ, True →
      Obeys (Protocol.only Expected) Safely (inventory config server) φ :=
    fun _ _ _ _ => safely (inventory_expected hready)
  exact obeys_only.mp (listRows_walk servers hinventory (fun _ _ _ => trivial)
    (fun _ _ _ => trivial) (fun _ _ _ => trivial) rows trivial)

theorem steady_exists (s : Text) (items : List Tool) {op : Op} (h : Expected op) :
    ∃ ans, Steady s items op ans := by
  cases op with
  | spawnTransport _ | headerName _ | headerValue _ => exact ⟨.ok (), rfl⟩
  | serve server => exact ⟨.ok ⟨⟨server, 0⟩, rfl⟩, ⟨⟨server, 0⟩, rfl⟩, rfl⟩
  | listReply entry => exact ⟨.ok ⟨items, 0⟩, ⟨items, 0⟩, rfl, fun _ => rfl⟩
  | readTools entry => exact ⟨⟨items, 0⟩, fun _ => rfl⟩
  | storeGet _ _ =>
    refine ⟨.ok none, ?_⟩
    rintro value ⟨⟩
  | envVar _ => exact ⟨some ['x'], ['x'], rfl, by decide⟩
  | poll | cancelled => exact ⟨false, rfl⟩
  | unreachable message => exact absurd rfl (h message)
  | entriesGet _ => exact ⟨none, trivial⟩
  | callReply _ => exact ⟨.ok (CallToolResult.success []), trivial⟩
  | guardEntry _ => exact ⟨0, trivial⟩
  | loadDirty _ | swapDirty _ => exact ⟨false, trivial⟩
  | acquire _ | release _ | entriesInsert _ _ | connectBegin _ | connectEnd _ | newEntry _ _
  | listRequest _ | storeDirty _ | writeTools _ _ | callRequest _ _ _ | registerSecret _
  | abandon => exact ⟨(), trivial⟩

theorem schema_expected (hready : ∀ entry ∈ config.servers.entries, ServerReady entry.2)
    {request : Request} (hname : request.name = "get_tool_schema".toList) :
    (dispatchTool (.withRegistry config active) request).All Expected (fun _ => True) := by
  rw [dispatchTool, if_neg (by rw [hname]; decide), if_pos hname, handleGetToolSchema]
  simp only [Aggregator.withRegistry]
  cases stringArgument request.arguments "name".toList with
  | none => trivial
  | some name =>
    dsimp only
    rcases parseServerTool name with _ | ⟨server, tool⟩
    · trivial
    dsimp only
    split_ifs
    · trivial
    · trivial
    · refine all_bind (all_mono (fun _ hq => hq) (fun out _ => ?_) (inventory_expected hready))
      rcases out with e | tools
      · trivial
      · dsimp only
        cases tools.find? (fun found => found.name = tool) <;> trivial

end Answerable

end FaninMcp.AnswerableRequests
