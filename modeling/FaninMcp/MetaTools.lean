import FaninMcp.NamespaceAcl
import FaninMcp.RegistryModel

/-!
# The three meta-tools

What the downstream client can call: `list_tools`, `get_tool_schema` and
`invoke_tool`. Each parses its arguments, asks the active namespace and then the
registry, in an order of its own. A reply keeps what it was made from, and is
rendered when it is handed back.
-/

set_option autoImplicit false

namespace FaninMcp.MetaTools
open Foundation.RustText Foundation.JsonText Foundation.AsyncPrograms FaninMcp.ConfigModel
  FaninMcp.ErrorModel FaninMcp.NamespaceAcl FaninMcp.RegistryModel

section Display

def shouldNeutralizeUpstreamChar (c : Char) : Bool :=
  let u := c.toNat
  u ≤ 0x001F || u == 0x007F || (0x0080 ≤ u && u ≤ 0x009F) || (0x200B ≤ u && u ≤ 0x200D) ||
    (0x2028 ≤ u && u ≤ 0x2029) || (0x202A ≤ u && u ≤ 0x202E) || (0x2066 ≤ u && u ≤ 0x2069) ||
    u == 0xFEFF

def neutralizeUpstreamDisplay (s : Text) : Text :=
  trim (s.map fun c => if shouldNeutralizeUpstreamChar c then ' ' else c)

def sanitizeListRowDescription (s : Text) : Text := (neutralizeUpstreamDisplay s).take 100

def sanitizeUpstreamIdentifier (s : Text) : Text :=
  (trim (s.map fun c => if shouldNeutralizeUpstreamChar c then ' ' else c)).take 200

def isSchemaMetadataKey (k : Text) : Bool :=
  ["title".toList, "description".toList, "$comment".toList, "markdownDescription".toList].contains k

/-- `sanitized` is the value sanitized as a schema, for what is not a string. -/
def sanitizeMetadataValue (sanitized : Json) : Json → Json
  | .str s => .str (neutralizeUpstreamDisplay s)
  | _ => sanitized

mutual

def sanitizeSchemaMetadata : Json → Json
  | .obj fields => .obj (sanitizeSchemaFields fields)
  | .arr items => .arr (sanitizeSchemaItems items)
  | other => other

def sanitizeSchemaFields : List (Text × Json) → List (Text × Json)
  | [] => []
  | (key, value)::rest =>
    (key, if isSchemaMetadataKey key then sanitizeMetadataValue (sanitizeSchemaMetadata value) value
      else sanitizeSchemaMetadata value) :: sanitizeSchemaFields rest

def sanitizeSchemaItems : List Json → List Json
  | [] => []
  | item::rest => sanitizeSchemaMetadata item :: sanitizeSchemaItems rest

end

end Display

section Replies

/-- A row of `list_tools`: a tool under the server that has it. -/
structure Row where
  server : Text
  tool : Tool

def Row.json (row : Row) : Json :=
  let dispName := sanitizeUpstreamIdentifier row.tool.name
  let dispDesc := sanitizeListRowDescription (row.tool.description.getD [])
  .obj [("description".toList, .str dispDesc), ("name".toList, .str dispName),
    ("server".toList, .str row.server), ("tool".toList, .str dispName)]

inductive Reply where
  | rows (rows : List Row)
  | schema (server : Text) (found : Tool)
  | result (result : CallToolResult)
  | failed (e : ToolError)

def Reply.asResult : Reply → CallToolResult
  | .rows shown => CallToolResult.success [textContent (render (.arr (shown.map Row.json)))]
  | .schema _ found =>
    CallToolResult.success [textContent (render (sanitizeSchemaMetadata (.obj found.inputSchema)))]
  | .result answer => answer
  | .failed e => e.asResult

end Replies

section Handlers

/-- The aggregator; `Aggregator::new` has neither part. -/
structure Aggregator where
  registry : Option TomlConfig := none
  active : Option ActiveNamespace := none

def Aggregator.withRegistry (config : TomlConfig) (active : ActiveNamespace) : Aggregator :=
  ⟨some config, some active⟩

/-- `Registry::has_server`. -/
def hasServer (config : TomlConfig) (server : Text) : Bool := decide (server ∈ config.servers)

def parseServerTool (name : Text) : Option (Text × Text) :=
  match splitOnce "__".toList name with
  | none => none
  | some (server, tool) => if server.isEmpty || tool.isEmpty then none else some (server, tool)

def stringArgument (arguments : Option JsonObject) (key : Text) : Option Text :=
  (arguments.bind fun a => get a key).bind Json.asStr

def listRows (config : TomlConfig) (active : ActiveNamespace) :
    List Text → List Row → RegistryProg Reply
  | [], rows => return .rows rows
  | server::rest, rows =>
    if !hasServer config server then return .failed (.unknownServer server)
    else do
      match ← inventory config server with
      | .error e => return .failed e
      | .ok tools =>
        let shown := tools.filter fun tool => active.isToolAllowed server tool.name
        listRows config active rest (rows ++ shown.map (Row.mk server))

def handleListTools (agg : Aggregator) (arguments : Option JsonObject) : RegistryProg Reply :=
  match agg.registry, agg.active with
  | none, _ | _, none => return .failed (.notImplemented "list_tools".toList)
  | some config, some active =>
    match stringArgument arguments "server".toList with
    | some server =>
      if !hasServer config server then return .failed (.unknownServer server)
      else if !active.isServerAllowed server then return .failed (.namespaceDenied server none)
      else listRows config active [server] []
    | none => listRows config active active.allowedServers []

def handleGetToolSchema (agg : Aggregator) (arguments : Option JsonObject) : RegistryProg Reply :=
  match stringArgument arguments "name".toList with
  | none =>
    return .failed (.invalidRequest "get_tool_schema".toList "missing string `name`".toList)
  | some name =>
    match parseServerTool name with
    | none => return .failed (.invalidRequest "get_tool_schema".toList
        "name must have format server__tool".toList)
    | some (server, tool) =>
      match agg.registry, agg.active with
      | none, _ | _, none => return .failed (.notImplemented "get_tool_schema".toList)
      | some config, some active =>
        if !hasServer config server then return .failed (.unknownServer server)
        else if !active.isToolAllowed server tool then
          return .failed (.namespaceDenied server (some tool))
        else do
          match ← inventory config server with
          | .error e => return .failed e
          | .ok tools =>
            match tools.find? (fun t => t.name = tool) with
            | none => return .failed (.unknownTool server tool)
            | some found => return .schema server found

def invokeRaced (config : TomlConfig) (server tool : Text) (arguments : JsonObject) :
    RegistryProg Reply :=
  Prog.interruptible (S := registryOps) .cancelled id
    (do
      doing .abandon
      return .failed (.callCancelled server tool))
    (do
      match ← callTool config server tool (some arguments) with
      | .ok result => return .result result
      | .error e => return .failed e)

def handleInvokeTool (agg : Aggregator) : Option JsonObject → RegistryProg Reply
  | none =>
    return .failed (.invalidRequest "invoke_tool".toList "missing arguments object".toList)
  | some args =>
    match (get args "name".toList).bind Json.asStr with
    | none => return .failed (.invalidRequest "invoke_tool".toList "missing string `name`".toList)
    | some name =>
      match parseServerTool name with
      | none => return .failed (.invalidRequest "invoke_tool".toList
          "name must have format server__tool".toList)
      | some (server, tool) =>
        match agg.registry, agg.active with
        | none, _ | _, none => return .failed (.notImplemented "invoke_tool".toList)
        | some config, some active =>
          if !hasServer config server then return .failed (.unknownServer server)
          else if !active.isToolAllowed server tool then
            return .failed (.namespaceDenied server (some tool))
          else
            match get args "arguments".toList with
            | none => return .failed (.invalidRequest "invoke_tool".toList
                "missing object `arguments`".toList)
            | some raw =>
              match raw.asObject with
              | none => return .failed (.invalidRequest "invoke_tool".toList
                  "`arguments` must be an object".toList)
              | some arguments => invokeRaced config server tool arguments

structure Request where
  name : Text
  arguments : Option JsonObject

def dispatchTool (agg : Aggregator) (request : Request) : RegistryProg Reply :=
  if request.name = "list_tools".toList then handleListTools agg request.arguments
  else if request.name = "get_tool_schema".toList then handleGetToolSchema agg request.arguments
  else if request.name = "invoke_tool".toList then handleInvokeTool agg request.arguments
  else return .failed (.notImplemented request.name)

abbrev metaService (agg : Aggregator) : Service registryOps := ⟨Request, Reply, dispatchTool agg⟩

end Handlers

end FaninMcp.MetaTools
