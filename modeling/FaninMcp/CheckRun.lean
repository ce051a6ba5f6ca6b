import FaninMcp.CapabilityCache
import FaninMcp.ConfigValidation
import FaninMcp.RegistryModel

/-!
# The preflight check

Every checked server is asked for its inventory in turn. What comes back is
recorded in a result that is printed, and a result without errors for all
servers of the namespace is what the capability cache is written from.
-/

set_option autoImplicit false

namespace FaninMcp.CheckRun
open Foundation.RustText Foundation.JsonText Foundation.AsyncPrograms FaninMcp.ConfigModel
  FaninMcp.ErrorModel FaninMcp.ConfigValidation FaninMcp.NamespaceAcl FaninMcp.CapabilityCache
  FaninMcp.RegistryModel

section Result

/-- `tools` are the names of the inventory, each once and in ascending order. -/
structure CheckServer where
  name : Text
  status : Text
  tools : List Text

structure CheckError where
  server : Option Text
  code : Text
  tool : Option Text
  message : Text
  key : Option Text := none

/-- `cacheServers` is not printed. -/
structure CheckResult where
  namespaceName : Text
  ok : Bool
  servers : List CheckServer
  errors : List CheckError
  cacheServers : List CachedServer

def CheckResult.new (namespaceName : Text) : CheckResult := ⟨namespaceName, true, [], [], []⟩

def CheckResult.failure (namespaceName : Text) (error : CheckError) : CheckResult :=
  ⟨namespaceName, false, [], [error], []⟩

def CheckServer.json (server : CheckServer) : Json :=
  .obj [
    ("name".toList, .str server.name),
    ("status".toList, .str server.status),
    ("tools".toList, .arr (server.tools.map fun tool => .obj [("name".toList, .str tool)]))]

def CheckError.json (error : CheckError) : Json :=
  .obj ([
    ("server".toList, optionText error.server),
    ("code".toList, .str error.code),
    ("tool".toList, optionText error.tool),
    ("message".toList, .str error.message)] ++
    (error.key.map fun key => ("key".toList, .str key)).toList)

def CheckResult.json (result : CheckResult) : Json :=
  .obj [
    ("namespace".toList, .str result.namespaceName),
    ("ok".toList, .bool result.ok),
    ("servers".toList, .arr (result.servers.map CheckServer.json)),
    ("errors".toList, .arr (result.errors.map CheckError.json))]

end Result

section Recording

def connectFailed (server tool : Option Text) : CheckError where
  server := server
  code := "upstream_connect_failed".toList
  tool := tool
  message := "upstream connection failed".toList

def mapToolError : ToolError → CheckError
  | .credentialResolution server key =>
    ⟨some server, "credential_resolution_failed".toList, none,
      "credential resolution failed".toList, some key⟩
  | .upstreamTimeout server tool =>
    ⟨some server, "upstream_timeout".toList, tool, "upstream inventory timed out".toList, none⟩
  | .notImplemented tool => connectFailed none (some tool)
  | .invalidRequest tool _ => connectFailed none (some tool)
  | .unknownServer server => connectFailed (some server) none
  | .unknownTool server tool => connectFailed (some server) (some tool)
  | .namespaceDenied server tool =>
    ⟨some server, "server_not_allowed".toList, tool,
      "server is not visible in the selected namespace".toList, none⟩
  | .upstreamConnect server _ => connectFailed (some server) none
  | .upstreamCall server tool _ => connectFailed (some server) (some tool)
  | .upstreamDisconnected server tool => connectFailed (some server) (some tool)
  | .callCancelled server tool => connectFailed (some server) (some tool)

def explicitTools (ns : ActiveNamespace) (server : Text) : List Text :=
  ((ns.tools.lookup server).getD ∅).sort (· ≤ ·)

def cachedTool (tool : Tool) : CachedTool := ⟨tool.name, tool.description.getD []⟩

def toolNames (tools : List CachedTool) : List Text :=
  (tools.map CachedTool.name).toFinset.sort (· ≤ ·)

def missingTools (ns : ActiveNamespace) (server : Text) (tools : List CachedTool) : List Text :=
  (explicitTools ns server).filter fun tool => decide (tool ∉ tools.map CachedTool.name)

def toolMissing (server tool : Text) : CheckError where
  server := some server
  code := "configured_tool_missing".toList
  tool := some tool
  message := "allowlisted tool absent from live inventory".toList

variable (config : TomlConfig) (ns : ActiveNamespace)

def recordInventory (server : Text) (tools : List CachedTool) (result : CheckResult) :
    CheckResult :=
  let missing := missingTools ns server tools
  let status := if missing.isEmpty then "ok".toList else "error".toList
  let description := ((config.servers.lookup server).bind ServerConfig.description).getD []
  { result with
    servers := result.servers ++ [⟨server, status, toolNames tools⟩]
    cacheServers := result.cacheServers ++ [⟨server, description, tools⟩]
    errors := result.errors ++ missing.map (toolMissing server) }

def recordError (server : Text) (error : ToolError) (result : CheckResult) : CheckResult :=
  { result with
    servers := result.servers ++ [⟨server, "error".toList, []⟩]
    errors := result.errors ++ [mapToolError error] }

def record (server : Text) (outcome : Outcome (List Tool)) (result : CheckResult) : CheckResult :=
  match outcome with
  | .ok tools => recordInventory config ns server (tools.map cachedTool) result
  | .error error => recordError server error result

def checkServers : List Text → CheckResult → RegistryProg CheckResult
  | [], result => return result
  | server::rest, result => do
    let outcome ← inventory config server
    checkServers rest (record config ns server outcome result)

end Recording

section Preflight

def capabilityCache (now : Text) (config : TomlConfig) (ns : ActiveNamespace)
    (result : CheckResult) : Cache where
  formatVersion := 1
  namespaceName := ns.name
  configFingerprint := configFingerprint config ns
  generatedAt := now
  servers := result.cacheServers

def writeCapabilityCache (serde : Serde) (disk : Disk) (now : Text) (config : TomlConfig)
    (ns : ActiveNamespace) (result : CheckResult) : Except Text Unit × Files :=
  storeCache serde disk (capabilityCache now config ns result)

/-- The command line: `namespaceArg` may be empty. -/
structure CheckArgs where
  namespaceArg : Text
  configPath : Option Text
  serverFilter : Option Text
  refreshCache : Bool
  noCacheWrite : Bool
  json : Bool

structure Host where
  iteration : HashIteration
  fromStr : Text → Except Text TomlConfig
  readToString : Text → Except Text Text
  serde : Serde
  disk : Disk
  now : Text

structure Emitted where
  stdout : Text
  stderr : Text
  success : Bool

def emit (result : CheckResult) (json : Bool) : Emitted :=
  if json then ⟨render result.json ++ ['\n'], [], result.ok⟩
  else
    ⟨[], "ok=".toList ++ (toString result.ok).toList ++ " namespace=".toList ++
      result.namespaceName ++ ['\n'], result.ok⟩

inductive Stop where
  | failed (error : CheckError)
  | panicked (message : Text)

def configRequired : CheckError where
  server := none
  code := "config_required".toList
  tool := none
  message := "--config is required for check".toList

def configValidationFailed : CheckError where
  server := none
  code := "config_validation_failed".toList
  tool := none
  message := "config could not be loaded and validated".toList

def serverNotAllowed (server : Text) : CheckError where
  server := some server
  code := "server_not_allowed".toList
  tool := none
  message := "server is not visible in the selected namespace".toList

def loadConfig (host : Host) (args : CheckArgs) : Except Stop TomlConfig :=
  match args.configPath with
  | none => .error (.failed configRequired)
  | some path =>
    match loadAndValidate host.iteration host.fromStr (host.readToString path) args.namespaceArg with
    | .ok config => .ok config
    | .error (.returned _) => .error (.failed configValidationFailed)
    | .error (.panicked message) => .error (.panicked message)

def checkedServers (ns : ActiveNamespace) (filter : Option Text) : Except Stop (List Text) :=
  match filter with
  | none => .ok ns.allowedServers
  | some server =>
    if ns.isServerAllowed server then .ok [server] else .error (.failed (serverNotAllowed server))

/-- What a check is about: the configuration, the namespace and the servers. -/
structure Plan where
  config : TomlConfig
  ns : ActiveNamespace
  servers : List Text

def plan (host : Host) (args : CheckArgs) : Except Stop Plan :=
  match loadConfig host args with
  | .error stop => .error stop
  | .ok config =>
    match ActiveNamespace.new config args.namespaceArg with
    | .error message => .error (.panicked message)
    | .ok ns => (checkedServers ns args.serverFilter).map (Plan.mk config ns)

/-- `result.ok = result.errors.is_empty()`. -/
def CheckResult.concluded (result : CheckResult) : CheckResult :=
  { result with ok := result.errors.isEmpty }

/-- The cache is written after a full check without errors. A write that fails
is only logged. -/
def finish (host : Host) (args : CheckArgs) (p : Plan) (result : CheckResult) : Emitted × Files :=
  let result := result.concluded
  let files :=
    if result.ok && args.serverFilter.isNone && !args.noCacheWrite then
      (writeCapabilityCache host.serde host.disk host.now p.config p.ns result).2
    else host.disk.files
  (emit result args.json, files)

/-- `check::run`: what is printed, and the files afterwards. -/
def run (host : Host) (args : CheckArgs) : RegistryProg (Emitted × Files) :=
  match plan host args with
  | .error (.failed error) =>
    return (emit (.failure (selectedNamespace args.namespaceArg) error) args.json, host.disk.files)
  | .error (.panicked message) => do
    let never ← doing (.unreachable message)
    nomatch never
  | .ok p => do
    let result ← checkServers p.config p.ns p.servers (.new p.ns.name)
    return finish host args p result

end Preflight

section Outcomes

def inventories (config : TomlConfig) : List Text → RegistryProg (List (Outcome (List Tool)))
  | [] => return []
  | server::rest => do
    let outcome ← inventory config server
    let outcomes ← inventories config rest
    return outcome::outcomes

abbrev Asked := Text × Outcome (List Tool)

variable (config : TomlConfig) (ns : ActiveNamespace)

def recordAll (asked : List Asked) (result : CheckResult) : CheckResult :=
  asked.foldl (fun result one => record config ns one.1 one.2 result) result

def fullCheck (outcomes : List (Outcome (List Tool))) : CheckResult :=
  (recordAll config ns (ns.allowedServers.zip outcomes) (.new ns.name)).concluded

theorem checkServers_eq (servers : List Text) (result : CheckResult) :
    checkServers config ns servers result = inventories config servers >>= fun outcomes =>
      pure (recordAll config ns (servers.zip outcomes) result) := by
  induction servers generalizing result with
  | nil => rfl
  | cons server rest ih =>
    rw [checkServers, inventories, prog_bind_assoc]
    congr 1
    funext outcome
    rw [ih, prog_bind_assoc]
    rfl

def checkedOf : Asked → CheckServer
  | (server, .ok tools) =>
    let cached := tools.map cachedTool
    ⟨server, if (missingTools ns server cached).isEmpty then "ok".toList else "error".toList,
      toolNames cached⟩
  | (server, .error _) => ⟨server, "error".toList, []⟩

def errorsOf : Asked → List CheckError
  | (server, .ok tools) => (missingTools ns server (tools.map cachedTool)).map (toolMissing server)
  | (_, .error error) => [mapToolError error]

def cachedOf : Asked → List CachedServer
  | (server, .ok tools) =>
    [⟨server, ((config.servers.lookup server).bind ServerConfig.description).getD [],
      tools.map cachedTool⟩]
  | (_, .error _) => []

theorem record_eq (one : Asked) (result : CheckResult) :
    record config ns one.1 one.2 result =
      { result with
        servers := result.servers ++ [checkedOf ns one]
        errors := result.errors ++ errorsOf ns one
        cacheServers := result.cacheServers ++ cachedOf config one } := by
  obtain ⟨server, error | tools⟩ := one
  · simp [record, recordError, checkedOf, errorsOf, cachedOf]
  · rfl

theorem recordAll_eq (asked : List Asked) (result : CheckResult) :
    recordAll config ns asked result =
      { result with
        servers := result.servers ++ asked.map (checkedOf ns)
        errors := result.errors ++ asked.flatMap (errorsOf ns)
        cacheServers := result.cacheServers ++ asked.flatMap (cachedOf config) } := by
  induction asked generalizing result with
  | nil => simp [recordAll]
  | cons one rest ih =>
    have hcons : recordAll config ns (one::rest) result =
      recordAll config ns rest (record config ns one.1 one.2 result) := rfl
    rw [hcons, ih, record_eq]
    simp

end Outcomes

end FaninMcp.CheckRun
