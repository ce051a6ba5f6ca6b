import FaninMcp.ConfigValidation
import FaninMcp.MetaTools
import FaninMcp.RegistryWalk

/-!
# The permission layer

No handler performs an operation for a server before the active namespace has
allowed it, and none that turns a request away performs any. A call is forwarded
for an allowed tool of the inventory the task has read; the cache may have moved
on by then, as its lock is not held while the call is sent.
-/

set_option autoImplicit false

namespace FaninMcp.MetaAcl
open Foundation.RustText Foundation.JsonText Foundation.AsyncPrograms FaninMcp.ConfigModel
  FaninMcp.ErrorModel FaninMcp.NamespaceResolver FaninMcp.ConfigValidation FaninMcp.NamespaceAcl
  FaninMcp.RegistryModel FaninMcp.RegistryWorld FaninMcp.RegistryProtocol FaninMcp.RegistryWalk
  FaninMcp.MetaTools

section Registry

def subject : Op → Option Text
  | .guardEntry server | .entriesGet server | .entriesInsert server _ | .connectBegin server
  | .connectEnd server | .spawnTransport server | .serve server => some server
  | .newEntry entry _ | .listRequest entry | .listReply entry | .loadDirty entry
  | .swapDirty entry | .storeDirty entry | .readTools entry | .writeTools entry _
  | .callRequest entry _ _ | .callReply entry => some entry.server
  | _ => none

def isForward : Op → Bool
  | .callRequest _ _ _ => true
  | _ => false

def Serving (server : Text) (op : Op) : Prop :=
  (∀ s, subject op = some s → s = server) ∧ isForward op = false

theorem serving_silent {op : Op} (h : subject op = none) (hf : isForward op = false)
    (server : Text) : Serving server op :=
  ⟨fun _ hs => absurd (h.symm.trans hs) (by simp), hf⟩

theorem serving_of_subject {op : Op} {server : Text} (h : subject op = some server)
    (hf : isForward op = false) : Serving server op :=
  ⟨fun _ hs => Option.some.inj (hs.symm.trans h), hf⟩

def isUse : Op → Bool
  | .loadDirty _ | .swapDirty _ | .storeDirty _ | .readTools _ | .writeTools _ _
  | .callRequest _ _ _ | .callReply _ => true
  | _ => false

def Connects (server : Text) (op : Op) : Prop :=
  (∀ s, subject op = some s → s = server) ∧ isUse op = false

theorem connects_silent {op : Op} (h : subject op = none) (hu : isUse op = false)
    (server : Text) : Connects server op :=
  ⟨fun _ hs => absurd (h.symm.trans hs) (by simp), hu⟩

theorem connects_of_subject {op : Op} {server : Text} (h : subject op = some server)
    (hu : isUse op = false) : Connects server op :=
  ⟨fun _ hs => Option.some.inj (hs.symm.trans h), hu⟩

theorem connects_resolution {op : Op} (h : isResolution op = true) (server : Text) :
    Connects server op := by
  cases op <;> first | exact connects_silent rfl rfl server | cases h

theorem connects_serving {op : Op} {server : Text} (h : Connects server op) : Serving server op := by
  refine ⟨h.1, ?_⟩
  cases op <;> first | rfl | exact absurd h.2 (by simp [isUse])

variable {server : Text} {α : Type} {R : α → Prop} {config : TomlConfig}

theorem withLock_all {Q : Op → Prop} {lock : Lock} {body : RegistryProg α}
    (ha : Q (.acquire lock)) (hr : Q (.release lock)) (h : body.All Q R) :
    (withLock lock body).All Q R := by
  rw [withLock_eq]
  exact ⟨ha, fun _ => all_bind (all_mono (fun _ hq => hq) (fun _ hv => ⟨hr, fun _ => hv⟩) h)⟩

theorem timed_all {Q : Op → Prop} {future : RegistryProg α} (hp : Q .poll) (h : future.All Q R) :
    (timed future).All Q (fun out => ∀ a, out = some a → R a) := by
  apply all_interruptible hp
  · rintro a ⟨⟩
  · refine all_bind (all_mono (fun _ hq => hq) (fun a ha => ?_) h)
    rintro _ ⟨⟩
    exact ha

theorem lookupEntry_all (server : Text) :
    (lookupEntry server).All (Connects server) (fun _ => True) :=
  withLock_all (connects_silent rfl rfl server) (connects_silent rfl rfl server)
    ⟨connects_of_subject rfl rfl, fun _ => trivial⟩

variable (config)

theorem connect_all (server : Text) (serverConfig : ServerConfig) (env headers : TextMap Text) :
    (connect server serverConfig env headers).All (Connects server) (Blames config server) := by
  refine all_mono (fun op hop => ?_) (fun _ h => h)
    (connect_starts .upstreamConnect serverConfig env headers)
  cases op <;> first
    | exact connects_silent rfl rfl server
    | exact connects_of_subject (congrArg some hop) rfl
    | exact hop.elim

theorem attempt_all (server : Text) (serverConfig : ServerConfig) (env headers : TextMap Text) :
    (attempt server serverConfig env headers).All (Connects server) (Blames config server) := by
  rw [attempt_eq]
  refine ⟨connects_of_subject rfl rfl, fun _ => all_bind (all_mono (fun _ hq => hq)
    (fun out hout => ?_) (timed_all (connects_silent rfl rfl server)
      (connect_all config server serverConfig env headers)))⟩
  refine ⟨connects_of_subject rfl rfl, fun _ => ?_⟩
  cases out with
  | none => exact fails_error .upstreamTimeout
  | some outcome => exact hout outcome rfl

theorem connectAbsent_all :
    (connectAbsent config server).All (Connects server) (Blames config server) := by
  refine fails_only.mp (connectAbsent_walk
    (fun _ hop => ⟨connects_resolution hop server, fun _ => rfl⟩) .unknownServer
    .credentialResolution .upstreamConnect
    (fun serverConfig env headers _ =>
      fails_only.mpr (attempt_all config server serverConfig env headers)) fun entry _ _ => ?_)
  exact obeys_only.mpr (withLock_all (connects_silent rfl rfl server)
    (connects_silent rfl rfl server) ⟨connects_of_subject rfl rfl, fun _ => trivial⟩)

theorem lookupEntry_finds : Obeys (Protocol.only (Connects server))
    (Finds (fun _ _ => True) fun _ => True) (lookupEntry server) () := by
  refine obeys_mono (fun found _ _ => ?_) (obeys_only.mpr (lookupEntry_all server))
  cases found <;> trivial

theorem getOrConnect_connects :
    (getOrConnect config server).All (Connects server) (Blames config server) := by
  have hguarded : (connectGuarded config server).All (Connects server) (Blames config server) :=
    fails_only.mp (connectGuarded_walk lookupEntry_finds
      fun _ _ => fails_only.mpr (connectAbsent_all config))
  have hguard : (withLock .initGuards (doing (.guardEntry server))).All (Connects server)
      fun _ => True :=
    withLock_all (connects_silent rfl rfl server) (connects_silent rfl rfl server)
      ⟨connects_of_subject rfl rfl, fun _ => trivial⟩
  exact fails_only.mp (getOrConnect_walk lookupEntry_finds (fun _ _ => obeys_only.mpr hguard)
    fun guard _ _ => fails_only.mpr (withLock_all (connects_silent rfl rfl server)
      (connects_silent rfl rfl server) hguarded))

theorem getOrConnect_all :
    (getOrConnect config server).All (Serving server) (Blames config server) :=
  all_mono (fun _ h => connects_serving h) (fun _ h => h) (getOrConnect_connects config)

theorem mapServiceError_undenied (e : ServiceError) (server tool : Text) :
    (mapServiceError e server tool).denies = false := by
  cases e <;> rfl

theorem mapServiceError_about (e : ServiceError) (server : Text) :
    ErrorAbout config server (mapServiceError e server []) := by
  cases e with
  | transportClosed => exact .upstreamDisconnected
  | transportSend _ => exact .upstreamDisconnected
  | other message => exact .upstreamCall message

def Refreshes : Op → Prop
  | .acquire _ | .release _ | .loadDirty _ | .swapDirty _ | .storeDirty _ | .readTools _
  | .writeTools _ _ | .listRequest _ | .listReply _ | .poll | .cancelled => True
  | _ => False

theorem ensureFresh_refreshes (entry : Entry) (server : Text) :
    (ensureFresh entry server).All Refreshes (fun _ => True) := by
  refine ⟨trivial, fun dirty => ?_⟩
  cases dirty with
  | false => exact trivial
  | true =>
    refine ⟨trivial, fun was => ?_⟩
    cases was with
    | false => exact trivial
    | true =>
      have hfetch : (fetchTools entry).All Refreshes (fun _ => True) :=
        ⟨trivial, fun _ => ⟨trivial, fun _ => trivial⟩⟩
      refine all_bind (p := timed (fetchTools entry)) (all_mono (fun _ hq => hq) (fun out _ => ?_)
        (timed_all trivial hfetch))
      rcases out with _ | e | fresh
      · exact ⟨trivial, fun _ => trivial⟩
      · exact ⟨trivial, fun _ => trivial⟩
      · exact all_bind (withLock_all trivial trivial ⟨trivial, fun _ => trivial⟩)

theorem readInventory_refreshes (entry : Entry) :
    (readInventory entry).All Refreshes (fun _ => True) :=
  withLock_all trivial trivial ⟨trivial, fun _ => trivial⟩

theorem ensureFresh_all {entry : Entry} (hs : entry.server = server) :
    (ensureFresh entry server).All (Serving server) (Blames config server) := by
  have hentry := congrArg some hs
  refine ⟨serving_of_subject hentry rfl, fun dirty => ?_⟩
  cases dirty with
  | false => exact fails_ok _
  | true =>
    refine ⟨serving_of_subject hentry rfl, fun was => ?_⟩
    cases was with
    | false => exact fails_ok _
    | true =>
      have hfetch : (fetchTools entry).All (Serving server) (fun _ => True) :=
        ⟨serving_of_subject hentry rfl, fun _ => ⟨serving_of_subject hentry rfl, fun _ => trivial⟩⟩
      refine all_bind (p := timed (fetchTools entry)) (all_mono (fun _ hq => hq) (fun out _ => ?_)
        (timed_all (serving_silent rfl rfl server) hfetch))
      rcases out with _ | e | fresh
      · exact ⟨serving_of_subject hentry rfl, fun _ => fails_error .upstreamTimeout⟩
      · exact ⟨serving_of_subject hentry rfl,
          fun _ => fails_error (mapServiceError_about config e server)⟩
      · refine all_bind (withLock_all (serving_silent rfl rfl server)
          (serving_silent rfl rfl server) ?_)
        exact ⟨serving_of_subject hentry rfl, fun _ => fails_ok _⟩

theorem readInventory_all {entry : Entry} (hs : entry.server = server) :
    (readInventory entry).All (Serving server) (fun _ => True) :=
  withLock_all (serving_silent rfl rfl server) (serving_silent rfl rfl server)
    ⟨serving_of_subject (congrArg some hs) rfl, fun _ => trivial⟩

theorem inventory_all :
    (inventory config server).All (Serving server) (Blames config server) :=
  fails_only.mp (inventory_walk (fails_only.mpr (getOrConnect_all config))
    (fun entry _ _ => fails_only.mpr (ensureFresh_all config entry.2))
    (fun entry _ _ => obeys_only.mpr (readInventory_all entry.2)) fun _ _ _ _ => trivial)

end Registry

section Handlers
variable {config : TomlConfig} {active : ActiveNamespace}

def Reply.Allowed (active : ActiveNamespace) : Reply → Prop
  | .rows shown => ∀ row ∈ shown, active.isToolAllowed row.server row.tool.name = true
  | .schema server found => active.isToolAllowed server found.name = true
  | _ => True

def Reply.Denied (reply : Reply) : Prop := ∃ e, reply = .failed e ∧ e.denies = true

def Browsing (active : ActiveNamespace) (op : Op) : Prop :=
  ∃ server, active.isServerAllowed server = true ∧ Serving server op

def Admitted (active : ActiveNamespace) (reply : Reply) : Prop :=
  Reply.Allowed active reply ∧ ¬ Reply.Denied reply

def Covers (config : TomlConfig) (active : ActiveNamespace) : Prop :=
  ∀ server, active.isServerAllowed server = true → server ∈ config.servers

theorem failed_undenied {e : ToolError} (h : e.denies = false) : ¬ Reply.Denied (.failed e) := by
  rintro ⟨e', he, hd⟩
  cases he
  exact absurd (h.symm.trans hd) (by simp)

theorem admitted_failed {e : ToolError} (h : e.denies = false) : Admitted active (.failed e) :=
  ⟨trivial, failed_undenied h⟩

theorem listRows_all (hc : Covers config active) (servers : List Text)
    (hs : ∀ server ∈ servers, active.isServerAllowed server = true) :
    (listRows config active servers []).All (Browsing active) (Admitted active) := by
  have hinventory : ∀ server ∈ servers, server ∈ config.servers → ∀ rows φ,
      (∀ row ∈ rows, active.isToolAllowed row.server row.tool.name = true) →
      Obeys (Protocol.only (Browsing active))
        (Comes (fun tools _ => ∀ row ∈ rows ++ rowsOf active server tools,
          active.isToolAllowed row.server row.tool.name = true) fun e _ => e.denies = false)
        (inventory config server) φ := by
    intro server hin hknown rows φ hrows
    refine obeys_mono (fun out _ hout => ?_) (obeys_only.mpr (all_mono
      (fun op hq => ⟨server, hs server hin, hq⟩) (fun _ h => h) (inventory_all config)))
    cases out with
    | error e => exact errorAbout_undenied hknown (hout e rfl)
    | ok tools =>
      intro row hrow
      rcases List.mem_append.mp hrow with hold | hnew
      · exact hrows row hold
      · obtain ⟨tool, htool, rfl⟩ := List.mem_map.mp hnew
        exact (List.mem_filter.mp htool).2
  refine obeys_only.mp (listRows_gathers servers hinventory (fun rows _ hrows => ⟨hrows, ?_⟩)
    (fun server hin hout => absurd (hc server (hs server hin)) hout)
    (fun e _ he => admitted_failed he) [] (by simp))
  rintro ⟨e, he, _⟩
  cases he

/-- The reply to a look for a schema, from what is known of the inventory. -/
def schemaIn (server tool : Text) : Except ToolError (List Tool) → Reply
  | .error e => .failed e
  | .ok tools =>
    (tools.find? fun t => t.name = tool).elim (.failed (.unknownTool server tool)) (.schema server)

/-- The errors of a request that is not taken on. -/
def Refusal : ToolError → Prop
  | .notImplemented _ | .invalidRequest _ _ | .unknownServer _ | .namespaceDenied _ _ => True
  | _ => False

/-- What a request comes to, once its arguments are read and the namespace is
asked: it is refused, or the registry is asked for what is configured and
allowed. -/
inductive Handled (config : TomlConfig) (active : ActiveNamespace) : RegistryProg Reply → Prop
  | refused (e : ToolError) (h : Refusal e) : Handled config active (.done (.failed e))
  | listing (servers : List Text)
      (visible : ∀ server ∈ servers, active.isServerAllowed server = true) :
      Handled config active (listRows config active servers [])
  | schema (name server tool : Text) (parsed : parseServerTool name = some (server, tool))
      (configured : server ∈ config.servers) (allowed : active.isToolAllowed server tool = true) :
      Handled config active (inventory config server >>= fun out => .done (schemaIn server tool out))
  | call (server tool : Text) (raw : JsonObject) (configured : server ∈ config.servers)
      (allowed : active.isToolAllowed server tool = true) :
      Handled config active (invokeRaced config server tool raw)

theorem listTools_handled (arguments : Option JsonObject) :
    Handled config active (handleListTools (.withRegistry config active) arguments) := by
  rw [handleListTools]
  simp only [Aggregator.withRegistry]
  cases stringArgument arguments "server".toList with
  | none => exact .listing _ fun server hs => (mem_allowedServers active server).mp hs
  | some server =>
    dsimp only
    split_ifs with hhas hallowed
    · exact .refused _ trivial
    · exact .refused _ trivial
    · exact .listing [server] (by simpa using hallowed)

theorem getToolSchema_eq {arguments : Option JsonObject} {name server tool : Text}
    (hname : stringArgument arguments "name".toList = some name)
    (hparse : parseServerTool name = some (server, tool)) :
    handleGetToolSchema (.withRegistry config active) arguments =
      if server ∈ config.servers then
        if active.isToolAllowed server tool then
          inventory config server >>= fun out => .done (schemaIn server tool out)
        else .done (.failed (.namespaceDenied server (some tool)))
      else .done (.failed (.unknownServer server)) := by
  rw [handleGetToolSchema, hname]
  simp only [Aggregator.withRegistry, hparse, hasServer, Bool.not_eq_true', decide_eq_false_iff_not,
    ite_not]
  by_cases hin : server ∈ config.servers
  · rw [if_pos hin, if_pos hin]
    cases active.isToolAllowed server tool with
    | false => rfl
    | true =>
      rw [if_neg (by simp), if_pos rfl]
      congr 1
      funext out
      rcases out with e | tools
      · rfl
      · dsimp only [schemaIn]
        cases tools.find? (fun t => t.name = tool) <;> rfl
  · rw [if_neg hin, if_neg hin]
    rfl

theorem getToolSchema_handled (arguments : Option JsonObject) :
    Handled config active (handleGetToolSchema (.withRegistry config active) arguments) := by
  cases hname : stringArgument arguments "name".toList with
  | none =>
    rw [handleGetToolSchema, hname]
    exact .refused _ trivial
  | some name =>
    cases hparse : parseServerTool name with
    | none =>
      rw [handleGetToolSchema, hname]
      simp only [hparse]
      exact .refused _ trivial
    | some parts =>
      rw [getToolSchema_eq hname hparse]
      split_ifs with hin hallowed
      · exact .schema name parts.1 parts.2 hparse hin hallowed
      · exact .refused _ trivial
      · exact .refused _ trivial

theorem invokeTool_handled (arguments : Option JsonObject) :
    Handled config active (handleInvokeTool (.withRegistry config active) arguments) := by
  rw [handleInvokeTool.eq_def]
  cases arguments with
  | none => exact .refused _ trivial
  | some args =>
    simp only [Aggregator.withRegistry]
    cases (get args "name".toList).bind Json.asStr with
    | none => exact .refused _ trivial
    | some name =>
      dsimp only
      rcases parseServerTool name with _ | ⟨server, tool⟩
      · exact .refused _ trivial
      dsimp only
      split_ifs with hhas hallowed
      · exact .refused _ trivial
      · exact .refused _ trivial
      cases get args "arguments".toList with
      | none => exact .refused _ trivial
      | some raw =>
        dsimp only
        cases raw.asObject with
        | none => exact .refused _ trivial
        | some object =>
          exact .call server tool object (by simpa [hasServer] using hhas) (by simpa using hallowed)

theorem dispatch_handled (request : Request) :
    Handled config active (dispatchTool (.withRegistry config active) request) := by
  rw [dispatchTool]
  split_ifs
  · exact listTools_handled request.arguments
  · exact getToolSchema_handled request.arguments
  · exact invokeTool_handled request.arguments
  · exact .refused _ trivial

theorem schema_all {server tool : Text} (hin : server ∈ config.servers)
    (hallowed : active.isToolAllowed server tool = true) :
    (inventory config server >>= fun out => .done (schemaIn server tool out) :
      RegistryProg Reply).All (Browsing active) (Admitted active) := by
  refine all_bind (all_mono (fun op hq => ⟨server, isToolAllowed_server hallowed, hq⟩)
    (fun out hout => ?_) (inventory_all config))
  rcases out with e | tools
  · exact admitted_failed (errorAbout_undenied hin (hout e rfl))
  change Admitted active ((tools.find? _).elim _ _)
  cases hfind : tools.find? (fun t => t.name = tool) with
  | none => exact admitted_failed rfl
  | some found =>
    have hname : found.name = tool := by simpa using List.find?_some hfind
    have hshown : active.isToolAllowed server found.name = true := by rwa [hname]
    exact ⟨hshown, by rintro ⟨e, he, _⟩; cases he⟩

/-- A task works for allowed servers only, and forwards a call only for an
allowed tool of the inventory it has read. -/
def aclMay (active : ActiveNamespace) (read : Option (Entry × Listing)) (op : Op) : Prop :=
  (∀ server, subject op = some server → active.isServerAllowed server = true) ∧
    ∀ entry tool arguments, op = .callRequest entry tool arguments →
      active.isToolAllowed entry.server tool = true ∧
        ∃ l, read = some (entry, l) ∧ ∃ found ∈ l.tools, found.name = tool

def aclAfter (read : Option (Entry × Listing)) : (op : Op) → Ans op → Option (Entry × Listing)
  | .readTools entry, l => some (entry, l)
  | _, _ => read

abbrev aclProtocol (active : ActiveNamespace) : Protocol registryOps :=
  ⟨Option (Entry × Listing), none, aclMay active, aclAfter⟩

theorem aclMay_browsing {op : Op} (h : Browsing active op) (read : Option (Entry × Listing)) :
    aclMay active read op := by
  obtain ⟨server, hallowed, hserving⟩ := h
  refine ⟨fun s hs => hserving.1 s hs ▸ hallowed, ?_⟩
  rintro entry tool arguments rfl
  exact absurd hserving.2 (by simp [isForward])

theorem aclMay_silent {op : Op} (h : subject op = none) (hf : isForward op = false)
    (read : Option (Entry × Listing)) : aclMay active read op := by
  refine ⟨fun s hs => absurd (h.symm.trans hs) (by simp), ?_⟩
  rintro entry tool arguments rfl
  cases hf

theorem obeys_forward {entry : Entry} {tool : Text} {arguments : Option JsonObject}
    {read : Option (Entry × Listing)}
    (hmay : aclMay active read (.callRequest entry tool arguments))
    (hallowed : active.isServerAllowed entry.server = true) :
    Obeys (aclProtocol active) (fun _ _ => True) (timed (forwardCall entry tool arguments)) read := by
  have hreply : aclMay active read (.callReply entry) :=
    aclMay_browsing ⟨entry.server, hallowed, serving_of_subject rfl rfl⟩ read
  apply obeys_interruptible_anywhere (fun φ => aclMay_silent rfl rfl φ) (fun _ _ => rfl)
  · exact fun _ => trivial
  · exact obeys_bind ⟨hmay, fun _ => ⟨hreply, fun _ => trivial⟩⟩

theorem obeys_callTool {server tool : Text} (arguments : Option JsonObject)
    (hallowed : active.isToolAllowed server tool = true) (read : Option (Entry × Listing)) :
    Obeys (aclProtocol active) (Comes (fun _ _ => True) fun _ _ => True)
      (callTool config server tool arguments) read := by
  have hserver := isToolAllowed_server hallowed
  have hmay : ∀ (φ : Option (Entry × Listing)) op, Serving server op → aclMay active φ op :=
    fun φ op hq => aclMay_browsing ⟨server, hserver, hq⟩ φ
  have hpart : ∀ {α : Type} {p : RegistryProg (Outcome α)} (φ : Option (Entry × Listing)),
      p.All (Serving server) (Blames config server) →
        Obeys (aclProtocol active) (Comes (fun _ _ => True) fun _ _ => True) p φ :=
    fun φ h => obeys_mono (fun out _ _ => by cases out <;> trivial) (obeys_all hmay h)
  have hread : ∀ (entry : EntryOf server) (φ : Option (Entry × Listing)), True →
      Obeys (aclProtocol active) (fun tools φ => φ = some (entry.1, tools))
        (readInventory entry.1) φ :=
    fun entry φ _ => ⟨aclMay_silent rfl rfl φ,
      fun _ => ⟨hmay φ _ (serving_of_subject (congrArg some entry.2) rfl),
        fun tools => ⟨aclMay_silent rfl rfl _, fun _ => rfl⟩⟩⟩
  refine callTool_walk (hpart read (getOrConnect_all config))
    (fun entry φ _ => hpart φ (ensureFresh_all config entry.2)) hread (fun _ _ _ _ => trivial)
    fun entry tools φ hφ hfound => ?_
  have hforward : aclMay active φ (.callRequest entry.1 tool arguments) := by
    refine ⟨?_, ?_⟩
    · rintro s ⟨⟩
      rw [entry.2]
      exact hserver
    · rintro _ _ _ ⟨⟩
      rw [entry.2]
      exact ⟨hallowed, tools, hφ, hfound⟩
  refine obeys_mono (fun out _ _ => ?_)
    (obeys_forward hforward (by rw [entry.2]; exact hserver))
  rcases out with _ | e | result <;> exact trivial

theorem obeys_invokeRaced {server tool : Text} {raw : JsonObject}
    (hallowed : active.isToolAllowed server tool = true) (read : Option (Entry × Listing)) :
    Obeys (aclProtocol active) (fun reply _ => Reply.Allowed active reply)
      (invokeRaced config server tool raw) read := by
  apply obeys_interruptible_anywhere (fun φ => aclMay_silent rfl rfl φ) (fun _ _ => rfl)
  · exact fun φ => ⟨aclMay_silent rfl rfl φ, fun _ => trivial⟩
  · refine obeys_bind (obeys_mono (fun out φ _ => ?_)
      (obeys_callTool (some raw) hallowed read))
    cases out <;> exact trivial

theorem dispatch_obeys (hc : Covers config active) (request : Request) :
    Obeys (aclProtocol active) (fun reply _ => Reply.Allowed active reply)
      (dispatchTool (.withRegistry config active) request) none := by
  have hbrowsing : ∀ p : RegistryProg Reply, p.All (Browsing active) (Admitted active) →
      Obeys (aclProtocol active) (fun reply _ => Reply.Allowed active reply) p none :=
    fun p hp => obeys_mono (fun _ _ h => h.1) (obeys_all (fun φ op hq => aclMay_browsing hq φ) hp)
  have hhandled := @dispatch_handled config active request
  generalize dispatchTool _ request = p at hhandled ⊢
  cases hhandled with
  | refused e => exact trivial
  | listing servers visible => exact hbrowsing _ (listRows_all hc servers visible)
  | schema name server tool _ configured allowed => exact hbrowsing _ (schema_all configured allowed)
  | call server tool raw _ allowed => exact obeys_invokeRaced allowed none

theorem callTool_all {server tool : Text} (arguments : Option JsonObject)
    (hin : server ∈ config.servers) :
    (callTool config server tool arguments).All (fun _ => True) Undenied := by
  have hpart : ∀ {α : Type} {p : RegistryProg (Outcome α)},
      p.All (Serving server) (Blames config server) →
        Obeys (Protocol.only fun _ => True) (Comes (fun _ _ => True) fun e _ => e.denies = false)
          p () := fun h => fails_only.mpr (all_mono (fun _ _ => trivial)
      (fun _ hout e he => errorAbout_undenied hin (hout e he)) h)
  refine fails_only.mp (callTool_walk (hpart (getOrConnect_all config))
    (fun entry _ _ => hpart (ensureFresh_all config entry.2))
    (fun entry _ _ => obeys_only.mpr (all_mono (fun _ _ => trivial) (fun _ _ => trivial)
      (readInventory_all entry.2))) (fun _ _ _ _ => rfl) fun entry _ _ _ _ => ?_)
  have hforward : (forwardCall entry.1 tool arguments).All (fun _ => True) (fun _ => True) :=
    ⟨trivial, fun _ => ⟨trivial, fun _ => trivial⟩⟩
  refine obeys_mono (fun out _ _ => ?_) (obeys_only.mpr (timed_all trivial hforward))
  rcases out with _ | e | result
  · exact rfl
  · exact mapServiceError_undenied e server tool
  · exact trivial

theorem invokeRaced_undenied {server tool : Text} {raw : JsonObject} (hin : server ∈ config.servers) :
    (invokeRaced config server tool raw).All (fun _ => True) (fun reply => ¬ Reply.Denied reply) := by
  apply all_interruptible trivial
  · exact ⟨trivial, fun _ => failed_undenied rfl⟩
  · refine all_bind (all_mono (fun _ _ => trivial) (fun out hout => ?_)
      (callTool_all (some raw) hin))
    cases out with
    | error e => exact failed_undenied (hout e rfl)
    | ok result =>
      rintro ⟨e, he, _⟩
      cases he

theorem dispatch_denies (hc : Covers config active) (request : Request) :
    Obeys (actedProtocol registryOps) (fun reply acted => Reply.Denied reply → acted = false)
      (dispatchTool (.withRegistry config active) request) false := by
  have hall : ∀ p : RegistryProg Reply, p.All (fun _ => True) (fun r => ¬ Reply.Denied r) →
      Obeys (actedProtocol registryOps) (fun reply acted => Reply.Denied reply → acted = false)
        p false :=
    fun p hp => obeys_mono (fun reply _ (h : ¬ Reply.Denied reply) hd => absurd hd h)
      (obeys_all (fun _ _ _ => trivial) hp)
  have hadmitted : ∀ p : RegistryProg Reply, p.All (Browsing active) (Admitted active) →
      Obeys (actedProtocol registryOps) (fun reply acted => Reply.Denied reply → acted = false)
        p false :=
    fun p hp => hall p (all_mono (fun _ _ => trivial) (fun _ h => h.2) hp)
  have hhandled := @dispatch_handled config active request
  generalize dispatchTool _ request = p at hhandled ⊢
  cases hhandled with
  | refused e => exact fun _ => rfl
  | listing servers visible => exact hadmitted _ (listRows_all hc servers visible)
  | schema name server tool _ configured allowed => exact hadmitted _ (schema_all configured allowed)
  | call server tool raw configured _ => exact hall _ (invokeRaced_undenied configured)

end Handlers

end FaninMcp.MetaAcl
