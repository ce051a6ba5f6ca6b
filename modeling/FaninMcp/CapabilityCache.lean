import FaninMcp.Foundation.JsonRoundTrip
import FaninMcp.Foundation.LossyUtf8
import FaninMcp.NamespaceAcl

/-!
# The capability cache

A file for each namespace with the tools its servers had at the last successful
check. It carries a fingerprint of the configuration it was taken under: a JSON
value that is compared as a whole when the file is read, so that a cache is used
only where every part of the configuration that it shows is the same.
-/

set_option autoImplicit false

namespace FaninMcp.CapabilityCache
open Foundation.RustText Foundation.JsonText Foundation.LossyUtf8 FaninMcp.ConfigModel
  FaninMcp.NamespaceAcl

structure CachedTool where
  name : Text
  description : Text

structure CachedServer where
  name : Text
  description : Text
  tools : List CachedTool

structure Cache where
  formatVersion : ℕ
  namespaceName : Text
  configFingerprint : Json
  generatedAt : Text
  servers : List CachedServer

section Fingerprint

/-- `effective_tool_filters`, a map and sets in ascending order. -/
def effectiveToolFilters (ns : ActiveNamespace) : List (Text × List Text) :=
  (ns.tools.keys.toFinset.sort (· ≤ ·)).map fun server =>
    (server, ((ns.tools.lookup server).getD ∅).sort (· ≤ ·))

structure FingerprintServer where
  name : Text
  transport : Text
  command : Option Text
  args : List Text
  endpoint : Option Text
  cwdTemplate : Option Text
  timeoutSecs : ℕ
  description : Option Text

def FingerprintServer.fromConfig (name : Text) (config : ServerConfig) : FingerprintServer where
  name := name
  transport := config.transportKind
  command := config.command
  args := config.args
  endpoint := config.endpoint
  cwdTemplate := config.cwd
  timeoutSecs := config.timeoutSecs
  description := config.description

def optionText (text : Option Text) : Json := text.elim .null .str

def textArray (texts : List Text) : Json := .arr (texts.map .str)

/-- `to_value` of a structure is a map with sorted keys. -/
def FingerprintServer.json (server : FingerprintServer) : Json :=
  .obj [
    ("args".toList, textArray server.args),
    ("command".toList, optionText server.command),
    ("cwd_template".toList, optionText server.cwdTemplate),
    ("description".toList, optionText server.description),
    ("endpoint".toList, optionText server.endpoint),
    ("name".toList, .str server.name),
    ("timeout_secs".toList, .num (intNumber server.timeoutSecs)),
    ("transport".toList, .str server.transport)]

def fingerprintServers (config : TomlConfig) (ns : ActiveNamespace) : List FingerprintServer :=
  ns.allowedServers.filterMap fun name =>
    (config.servers.lookup name).map (FingerprintServer.fromConfig name)

def configFingerprint (config : TomlConfig) (ns : ActiveNamespace) : Json :=
  .obj [
    ("allowed_servers".toList, textArray ns.allowedServers),
    ("namespace".toList, .str ns.name),
    ("servers".toList, .arr ((fingerprintServers config ns).map FingerprintServer.json)),
    ("tools".toList, .obj ((effectiveToolFilters ns).map fun filter =>
      (filter.1, textArray filter.2)))]

end Fingerprint

section File

inductive Component where
  | rootDir
  | curDir
  | parentDir
  | normal (text : Text)
  deriving DecidableEq

def component (leading : Bool) (text : Text) : Option Component :=
  if text = [] then none
  else if text = ['.'] then if leading then some .curDir else none
  else if text = ['.', '.'] then some .parentDir
  else some (.normal text)

/-- `Path::components` on Unix. -/
def components (path : Text) : List Component :=
  match path.splitOn '/' with
  | [] => []
  | first::rest =>
    if path.head? = some '/' then .rootDir :: rest.filterMap (component false)
    else (component true first).toList ++ rest.filterMap (component false)

def isValidCacheNamespaceStem (ns : Text) : Bool :=
  match components ns with
  | .normal text :: rest => decide (text = ns) && rest.isEmpty
  | _ => false

/-- `PathBuf::join` on Unix. -/
def join (base part : Text) : Text :=
  if part.head? = some '/' then part
  else if base = [] ∨ base.getLast? = some '/' then base ++ part
  else base ++ '/' :: part

abbrev Vars := Text → Option Text

def platformCacheDir (vars : Vars) : Option Text :=
  ((vars "XDG_CACHE_HOME".toList).filter fun path => path.head? = some '/').or
    ((vars "HOME".toList).map fun home => join home ".cache".toList)

def capabilityCachePath (vars : Vars) (ns : Text) : Option Text :=
  if isValidCacheNamespaceStem ns then
    ((vars "FANIN_MCP_CACHE_DIR".toList).or (platformCacheDir vars)).map fun root =>
      join (join (join root "fanin-mcp".toList) "capabilities".toList) (ns ++ ".json".toList)
  else none

abbrev Files := Text → Option Bytes

structure Serde where
  toVecPretty : Cache → Bytes
  fromSlice : Bytes → Option Cache

/-- What the file system answers. A write that fails may leave anything. -/
structure Disk where
  vars : Vars
  files : Files
  createDirAll : Except Text Unit := .ok ()
  write : Except (Text × Option Bytes) Unit := .ok ()

def storeCache (serde : Serde) (disk : Disk) (cache : Cache) : Except Text Unit × Files :=
  match capabilityCachePath disk.vars cache.namespaceName with
  | none => (.ok (), disk.files)
  | some path =>
    match disk.createDirAll with
    | .error e => (.error e, disk.files)
    | .ok () =>
      match disk.write with
      | .error (e, left) => (.error e, Function.update disk.files path left)
      | .ok () => (.ok (), Function.update disk.files path (some (serde.toVecPretty cache)))

def readCache (serde : Serde) (file : Option Bytes) (config : TomlConfig) (ns : ActiveNamespace) :
    List CachedServer :=
  match file.bind serde.fromSlice with
  | none => []
  | some cache =>
    if cache.formatVersion ≠ 1 ∨ cache.namespaceName ≠ ns.name ∨
      cache.configFingerprint ≠ configFingerprint config ns then [] else cache.servers

def allowedTools (ns : ActiveNamespace) (server : CachedServer) : List (Text × Text) :=
  (server.tools.filter fun tool => ns.isToolAllowed server.name tool.name).map fun tool =>
    (tool.name, tool.description)

def summaries (ns : ActiveNamespace) (servers : List CachedServer) : TextMap (List (Text × Text)) :=
  (servers.filter fun server => ns.isServerAllowed server.name).foldl
    (fun found server => found.insert server.name (allowedTools ns server)) ∅

def matchingCacheToolSummaries (serde : Serde) (disk : Disk) (config : TomlConfig)
    (ns : ActiveNamespace) : TextMap (List (Text × Text)) :=
  match capabilityCachePath disk.vars ns.name with
  | none => ∅
  | some path => summaries ns (readCache serde (disk.files path) config ns)

end File

end FaninMcp.CapabilityCache
