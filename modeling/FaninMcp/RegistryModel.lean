import FaninMcp.ConfigModel
import FaninMcp.ErrorModel
import FaninMcp.Foundation.AsyncPrograms

/-!
# The upstream registry

The operations a registry call performs, in program order: the four kinds of
locks, the maps they guard, the dirty flag and the cached inventory of an
entry, and the messages to and from an upstream. A lock guard is released where
its scope ends, on every path. A timeout may fire wherever the timed future
waits, and drops it there.
-/

set_option autoImplicit false

namespace FaninMcp.RegistryModel
open Foundation.RustText Foundation.JsonText Foundation.AsyncPrograms FaninMcp.ConfigModel
  FaninMcp.ErrorModel

structure Tool where
  name : Text
  description : Option Text
  inputSchema : JsonObject

/-- `Arc<UpstreamEntry>`: a connection and the server it was made to. -/
structure Entry where
  server : Text
  serial : ℕ
  deriving DecidableEq

abbrev EntryOf (server : Text) := {entry : Entry // entry.server = server}

/-- A reply to `tools/list`, with the revision of the upstream's list that it
shows. No program looks at the revision. -/
structure Listing where
  tools : List Tool
  revision : ℕ

inductive Lock where
  | entriesRead
  | entriesWrite
  | initGuards
  | init (guard : ℕ)
  | toolsRead (entry : Entry)
  | toolsWrite (entry : Entry)
  deriving DecidableEq

inductive ServiceError where
  | transportClosed
  | transportSend (error : Text)
  | other (message : Text)

/-- `connectBegin` and `connectEnd` mark where an attempt begins and ends;
`abandon` drops the future a `select!` has decided against. -/
inductive Op where
  | acquire (lock : Lock)
  | release (lock : Lock)
  | guardEntry (server : Text)
  | entriesGet (server : Text)
  | entriesInsert (server : Text) (entry : EntryOf server)
  | connectBegin (server : Text)
  | connectEnd (server : Text)
  | spawnTransport (server : Text)
  | headerName (name : Text)
  | headerValue (value : Text)
  | serve (server : Text)
  | newEntry (entry : Entry) (tools : Listing)
  | listRequest (entry : Entry)
  | listReply (entry : Entry)
  | loadDirty (entry : Entry)
  | swapDirty (entry : Entry)
  | storeDirty (entry : Entry)
  | readTools (entry : Entry)
  | writeTools (entry : Entry) (fresh : Listing)
  | callRequest (entry : Entry) (tool : Text) (arguments : Option JsonObject)
  | callReply (entry : Entry)
  | storeGet (server key : Text)
  | envVar (key : Text)
  | registerSecret (value : Text)
  | poll
  | cancelled
  | abandon
  | unreachable (message : Text)

abbrev Ans : Op → Type
  | .guardEntry _ => ℕ
  | .entriesGet server => Option (EntryOf server)
  | .spawnTransport _ => Except Text Unit
  | .headerName _ => Except Text Unit
  | .headerValue _ => Except Text Unit
  | .serve server => Except Text (EntryOf server)
  | .listReply _ => Except ServiceError Listing
  | .loadDirty _ => Bool
  | .swapDirty _ => Bool
  | .readTools _ => Listing
  | .callReply _ => Except ServiceError CallToolResult
  | .storeGet _ _ => Except Text (Option Text)
  | .envVar _ => Option Text
  | .poll => Bool
  | .cancelled => Bool
  | .unreachable _ => Empty
  | _ => Unit

def awaits : Op → Bool
  | .acquire _ | .serve _ | .listRequest _ | .listReply _ | .callRequest _ _ _ | .callReply _
  | .poll | .cancelled => true
  | _ => false

abbrev registryOps : Signature := ⟨Op, Ans, awaits⟩

abbrev RegistryProg : Type → Type := Prog registryOps

abbrev Outcome (α : Type) := Except ToolError α

def doing (op : Op) : RegistryProg (Ans op) := perform (S := registryOps) op

def withLock {α : Type} (lock : Lock) (body : RegistryProg α) : RegistryProg α := do
  doing (.acquire lock)
  let a ← body
  doing (.release lock)
  return a

/-- `timeout(effective, future)`: nothing when the timer fires first. -/
def timed {α : Type} (future : RegistryProg α) : RegistryProg (Option α) :=
  Prog.interruptible (S := registryOps) .poll id (pure none) (some <$> future)

section Resolution

/-- Where the scanner of `${VAR}` placeholders stands. -/
inductive ScanMode where
  | literal
  | variable (name : Text)

/-- The loop over the characters of a raw value; `result` is the text so far. -/
def resolveFrom (server : Text) : ScanMode → Text → Text → RegistryProg (Outcome Text)
  | .literal, result, [] => return .ok result
  | .literal, result, '$' :: '{' :: rest => resolveFrom server (.variable []) result rest
  | .literal, result, c::rest => resolveFrom server .literal (result ++ [c]) rest
  | .variable name, result, [] => return .ok (result ++ "$\x7b".toList ++ name)
  | .variable name, result, c::rest =>
    if c = '}' then
      if name.isEmpty then resolveFrom server .literal (result ++ "$\x7b\x7d".toList) rest
      else do
        let preferred : Option Text ← (do
          match ← doing (.storeGet server name) with
          | .ok found => return found
          | .error _ => return none)
        let resolved ← (match preferred with
          | some value => return some value
          | none => doing (.envVar name))
        match resolved with
        | none => return .error (.credentialResolution server name)
        | some value => do
          doing (.registerSecret value)
          resolveFrom server .literal (result ++ value) rest
    else resolveFrom server (.variable (name ++ [c])) result rest

/-- `str::contains`. -/
def contains (pat text : Text) : Bool :=
  match text with
  | [] => pat.isEmpty
  | c::rest => pat.isPrefixOf (c::rest) || contains pat rest

def resolveEnvValue (server raw : Text) : RegistryProg (Outcome Text) :=
  if !contains "$\x7b".toList raw then return .ok raw
  else resolveFrom server .literal [] raw

/-- Resolves the values of a map in turn; headers are registered as secrets. -/
def resolveValues (server : Text) (register : Bool) :
    List (Σ _ : Text, Text) → TextMap Text → RegistryProg (Outcome (TextMap Text))
  | [], resolved => return .ok resolved
  | ⟨key, raw⟩::rest, resolved => do
    match ← resolveEnvValue server raw with
    | .error e => return .error e
    | .ok value =>
      if register then doing (.registerSecret value)
      resolveValues server register rest (resolved.insert key value)

def resolveCwd (server : Text) (config : ServerConfig) : RegistryProg (Outcome (Option Text)) :=
  if config.transportKind = "stdio".toList then
    match config.cwd with
    | none => return .ok none
    | some raw => do
      match ← resolveEnvValue server raw with
      | .error e => return .error e
      | .ok resolved =>
        if (trim resolved).isEmpty then
          return .error (.upstreamConnect server "resolved cwd is empty or whitespace-only".toList)
        else return .ok (some resolved)
  else return .ok none

end Resolution

section Connecting

def registerAll : List (Σ _ : Text, Text) → RegistryProg Unit
  | [] => return ()
  | ⟨_, value⟩::rest => do
    doing (.registerSecret value)
    registerAll rest

def buildHttpHeaders (server : Text) : List (Σ _ : Text, Text) → RegistryProg (Outcome Unit)
  | [] => return .ok ()
  | ⟨name, value⟩::rest => do
    match ← doing (.headerName name) with
    | .error e => return .error (.upstreamConnect server
        ("invalid HTTP header name `".toList ++ name ++ "`: ".toList ++ e))
    | .ok () =>
      match ← doing (.headerValue value) with
      | .error e => return .error (.upstreamConnect server
          ("invalid HTTP header value for `".toList ++ name ++ "`: ".toList ++ e))
      | .ok () => buildHttpHeaders server rest

def serveTransport (server : Text) : RegistryProg (Outcome (EntryOf server)) := do
  match ← doing (.serve server) with
  | .error e => return .error (.upstreamConnect server e)
  | .ok entry => return .ok entry

def startService (server : Text) (config : ServerConfig) (env headers : TextMap Text) :
    RegistryProg (Outcome (EntryOf server)) :=
  if config.transportKind = "stdio".toList then do
    registerAll env.entries
    match ← doing (.spawnTransport server) with
    | .error e => return .error (.upstreamConnect server e)
    | .ok () => serveTransport server
  else if config.transportKind = "streamable-http".toList then do
    match ← buildHttpHeaders server headers.entries with
    | .error e => return .error e
    | .ok () => serveTransport server
  else do
    let never ← doing (.unreachable "config validation rejects unsupported transports".toList)
    nomatch never

/-- `ServiceError`'s own text. -/
def ServiceError.display : ServiceError → Text
  | .transportClosed => "Transport closed".toList
  | .transportSend e => "Transport send error: ".toList ++ e
  | .other message => message

def connect (server : Text) (config : ServerConfig) (env headers : TextMap Text) :
    RegistryProg (Outcome (EntryOf server)) := do
  match ← startService server config env headers with
  | .error e => return .error e
  | .ok entry =>
    doing (.listRequest entry)
    match ← doing (.listReply entry) with
    | .error e => return .error (.upstreamConnect server e.display)
    | .ok tools =>
      doing (.newEntry entry tools)
      return .ok entry

def attempt (server : Text) (config : ServerConfig) (env headers : TextMap Text) :
    RegistryProg (Outcome (EntryOf server)) := do
  doing (.connectBegin server)
  let outcome ← timed (connect server config env headers)
  doing (.connectEnd server)
  return outcome.getD (.error (.upstreamTimeout server none))

def lookupEntry (server : Text) : RegistryProg (Option (EntryOf server)) :=
  withLock .entriesRead (doing (.entriesGet server))

def connectAbsent (config : TomlConfig) (server : Text) :
    RegistryProg (Outcome (EntryOf server)) :=
  match config.servers.lookup server with
  | none => return .error (.unknownServer server)
  | some serverConfig => do
    match ← resolveValues server false serverConfig.env.entries ∅ with
    | .error e => return .error e
    | .ok env =>
      match ← resolveValues server true serverConfig.headers.entries ∅ with
      | .error e => return .error e
      | .ok headers =>
        match ← resolveCwd server serverConfig with
        | .error e => return .error e
        | .ok _ =>
          match ← attempt server serverConfig env headers with
          | .error e => return .error e
          | .ok entry =>
            withLock .entriesWrite (doing (.entriesInsert server entry))
            return .ok entry

/-- The body of `get_or_connect` behind the server's guard. -/
def connectGuarded (config : TomlConfig) (server : Text) :
    RegistryProg (Outcome (EntryOf server)) := do
  match ← lookupEntry server with
  | some entry => return .ok entry
  | none => connectAbsent config server

def getOrConnect (config : TomlConfig) (server : Text) : RegistryProg (Outcome (EntryOf server)) := do
  match ← lookupEntry server with
  | some entry => return .ok entry
  | none =>
    let guard ← withLock .initGuards (doing (.guardEntry server))
    withLock (.init guard) (connectGuarded config server)

end Connecting

def mapServiceError (e : ServiceError) (server tool : Text) : ToolError :=
  match e with
  | .transportClosed | .transportSend _ => .upstreamDisconnected server tool
  | .other message => .upstreamCall server tool message

def fetchTools (entry : Entry) : RegistryProg (Except ServiceError Listing) := do
  doing (.listRequest entry)
  doing (.listReply entry)

def ensureFresh (entry : Entry) (server : Text) : RegistryProg (Outcome Unit) := do
  if !(← doing (.loadDirty entry)) then return .ok ()
  else if !(← doing (.swapDirty entry)) then return .ok ()
  else
    match ← timed (fetchTools entry) with
    | some (.ok fresh) =>
      withLock (.toolsWrite entry) (doing (.writeTools entry fresh))
      return .ok ()
    | some (.error e) =>
      doing (.storeDirty entry)
      return .error (mapServiceError e server [])
    | none =>
      doing (.storeDirty entry)
      return .error (.upstreamTimeout server none)

def readInventory (entry : Entry) : RegistryProg Listing :=
  withLock (.toolsRead entry) (doing (.readTools entry))

def inventory (config : TomlConfig) (server : Text) : RegistryProg (Outcome (List Tool)) := do
  match ← getOrConnect config server with
  | .error e => return .error e
  | .ok entry =>
    match ← ensureFresh entry server with
    | .error e => return .error e
    | .ok () =>
      let tools ← readInventory entry
      return .ok tools.tools

def forwardCall (entry : Entry) (tool : Text) (arguments : Option JsonObject) :
    RegistryProg (Except ServiceError CallToolResult) := do
  doing (.callRequest entry tool arguments)
  doing (.callReply entry)

def callTool (config : TomlConfig) (server tool : Text) (arguments : Option JsonObject) :
    RegistryProg (Outcome CallToolResult) := do
  match ← getOrConnect config server with
  | .error e => return .error e
  | .ok entry =>
    match ← ensureFresh entry server with
    | .error e => return .error e
    | .ok () =>
      let tools ← readInventory entry
      if !(tools.tools.any fun t => t.name = tool) then
        return .error (.unknownTool server tool)
      else
        match ← timed (forwardCall entry tool arguments) with
        | some (.ok result) => return .ok result
        | some (.error e) => return .error (mapServiceError e server tool)
        | none => return .error (.upstreamTimeout server (some tool))

inductive Call where
  | connect (server : Text)
  | inventory (server : Text)
  | callTool (server tool : Text) (arguments : Option JsonObject)

inductive Answer where
  | entry (outcome : Outcome Entry)
  | tools (outcome : Outcome (List Tool))
  | result (outcome : Outcome CallToolResult)

def serveCall (config : TomlConfig) : Call → RegistryProg Answer
  | .connect server => do
    let outcome ← getOrConnect config server
    return .entry (outcome.map Subtype.val)
  | .inventory server => do
    let outcome ← inventory config server
    return .tools outcome
  | .callTool server tool arguments => do
    let outcome ← callTool config server tool arguments
    return .result outcome

abbrev registryService (config : TomlConfig) : Service registryOps := ⟨Call, Answer, serveCall config⟩

end FaninMcp.RegistryModel
