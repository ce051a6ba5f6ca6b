import FaninMcp.Foundation.JsonText

/-!
# Tool-level errors

A failed call is answered with a result that carries the error as text and is
flagged as an error. All errors but one are rendered as an object with the same
five fields, in sorted order.
-/

set_option autoImplicit false

namespace FaninMcp.ErrorModel
open Foundation.RustText Foundation.JsonText

inductive ToolError where
  | notImplemented (tool : Text)
  | invalidRequest (tool message : Text)
  | unknownServer (server : Text)
  | unknownTool (server tool : Text)
  | namespaceDenied (server : Text) (tool : Option Text)
  | upstreamConnect (server message : Text)
  | upstreamCall (server tool message : Text)
  | upstreamDisconnected (server tool : Text)
  | upstreamTimeout (server : Text) (tool : Option Text)
  | callCancelled (server tool : Text)
  | credentialResolution (server key : Text)

/-- The answers to a request that is turned away before any upstream is asked. -/
def ToolError.denies : ToolError → Bool
  | .invalidRequest _ _ | .unknownServer _ | .namespaceDenied _ _ => true
  | _ => false

structure CallToolResult where
  content : List Json
  isError : Option Bool

/-- `Content::text`. -/
def textContent (text : Text) : Json :=
  .obj [("type".toList, .str "text".toList), ("text".toList, .str text)]

def CallToolResult.success (content : List Json) : CallToolResult := ⟨content, some false⟩

def CallToolResult.error (content : List Json) : CallToolResult := ⟨content, some true⟩

def optionalText (text : Option Text) : Json := text.elim .null .str

def structuredError (server tool : Option Text) (code message : Text) : Text :=
  render (.obj [
    ("code".toList, .str code),
    ("message".toList, .str message),
    ("recoverable".toList, .bool true),
    ("server".toList, optionalText server),
    ("tool".toList, optionalText tool)])

def ToolError.message : ToolError → Text
  | .notImplemented tool =>
    "tool `".toList ++ tool ++ ("` is not implemented in this build of fanin-mcp; " ++
      "upstream proxying is not wired yet").toList
  | .invalidRequest tool message =>
    structuredError none (some tool) "invalid_request".toList message
  | .unknownServer server =>
    structuredError (some server) none "unknown_server".toList
      "server is not configured or not visible in the active namespace".toList
  | .unknownTool server tool =>
    structuredError (some server) (some tool) "unknown_tool".toList
      ("unknown upstream tool `".toList ++ tool ++ "` on server `".toList ++ server ++ "`".toList)
  | .namespaceDenied server tool =>
    structuredError (some server) tool "namespace_denied".toList
      "server or tool is denied by the active namespace".toList
  | .upstreamConnect server message =>
    structuredError (some server) none "upstream_connect_failed".toList message
  | .upstreamCall server tool message =>
    structuredError (some server) (some tool) "upstream_call_failed".toList message
  | .upstreamDisconnected server tool =>
    structuredError (some server) (some tool) "upstream_disconnected".toList
      ("upstream `".toList ++ server ++
        "` disconnected (process died or transport closed)".toList)
  | .upstreamTimeout server tool =>
    structuredError (some server) tool "upstream_timeout".toList
      (match tool with
        | some tool => "upstream call to `".toList ++ tool ++ "` on `".toList ++ server ++
          "` exceeded timeout".toList
        | none => "upstream operation on `".toList ++ server ++ "` exceeded timeout".toList)
  | .callCancelled server tool =>
    structuredError (some server) (some tool) "call_cancelled".toList
      ("call to `".toList ++ tool ++ "` on `".toList ++ server ++
        "` was cancelled by client".toList)
  | .credentialResolution server key =>
    structuredError (some server) none "credential_resolution_failed".toList
      ("missing credential `".toList ++ key ++ "` for server `".toList ++ server ++ "`".toList)

def ToolError.asResult (e : ToolError) : CallToolResult :=
  CallToolResult.error [textContent e.message]

end FaninMcp.ErrorModel
