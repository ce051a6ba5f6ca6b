import FaninMcp.CacheFile
import FaninMcp.CheckRun

/-!
# The lines a check prints

With `--json` the result is one line on stdout, and without it a line on stderr
that says whether the check was good. A reader of the JSON has the whole result
again.
-/

set_option autoImplicit false

namespace FaninMcp.ReportLines
open Foundation.RustText Foundation.JsonText FaninMcp.CapabilityCache FaninMcp.CacheFile
  FaninMcp.CheckRun

section Reader

def readField {α : Type} (read : Json → Option α) (key : Text) (json : Json) : Option α :=
  (json.asObject.bind fun object => get object key).bind read

def readOptional : Json → Option (Option Text)
  | .null => some none
  | .str text => some (some text)
  | _ => none

def readBool : Json → Option Bool
  | .bool b => some b
  | _ => none

def readTool (json : Json) : Option Text := readField Json.asStr "name".toList json

def readServer (json : Json) : Option CheckServer := do
  let name ← readField Json.asStr "name".toList json
  let status ← readField Json.asStr "status".toList json
  let tools ← readField (readList readTool) "tools".toList json
  return ⟨name, status, tools⟩

def readKey (json : Json) : Option (Option Text) :=
  match json.asObject.bind fun object => get object "key".toList with
  | none => some none
  | some key => key.asStr.map some

def readCheckError (json : Json) : Option CheckError := do
  let server ← readField readOptional "server".toList json
  let code ← readField Json.asStr "code".toList json
  let tool ← readField readOptional "tool".toList json
  let message ← readField Json.asStr "message".toList json
  let key ← readKey json
  return ⟨server, code, tool, message, key⟩

def readReport (text : Text) : Option CheckResult := do
  let json ← parse text
  let namespaceName ← readField Json.asStr "namespace".toList json
  let ok ← readField readBool "ok".toList json
  let servers ← readField (readList readServer) "servers".toList json
  let errors ← readField (readList readCheckError) "errors".toList json
  return ⟨namespaceName, ok, servers, errors, []⟩

def printed (result : CheckResult) : CheckResult := { result with cacheServers := [] }

theorem readField_get {α : Type} {read : Json → Option α} {key : Text} {object : JsonObject}
    {json : Json} (h : get object key = some json) :
    readField read key (.obj object) = read json := by
  simp [readField, Json.asObject, h]

theorem readOptional_option (text : Option Text) : readOptional (optionText text) = some text := by
  cases text <;> rfl

theorem readServer_json (server : CheckServer) : readServer server.json = some server := by
  have htools := @readList_map Text (fun tool => .obj [("name".toList, .str tool)]) readTool
    (fun _ => rfl) server.tools
  rw [readServer, CheckServer.json, readField_get rfl, readField_get rfl, readField_get rfl, htools]
  rfl

theorem readCheckError_json (error : CheckError) : readCheckError error.json = some error := by
  obtain ⟨server, code, tool, message, key⟩ := error
  cases key with
  | none =>
    rw [readCheckError, CheckError.json, readField_get rfl, readField_get rfl, readField_get rfl,
      readField_get rfl, readOptional_option, readOptional_option]
    rfl
  | some key =>
    rw [readCheckError, CheckError.json, readField_get rfl, readField_get rfl, readField_get rfl,
      readField_get rfl, readOptional_option, readOptional_option]
    rfl

theorem readReport_json (result : CheckResult) :
    readReport (render result.json) = some (printed result) := by
  have hservers := readList_map readServer_json result.servers
  have herrors := readList_map readCheckError_json result.errors
  rw [readReport, parse_rendered, CheckResult.json]
  dsimp only [bind, Option.bind]
  rw [readField_get rfl, readField_get rfl, readField_get rfl, readField_get rfl, hservers, herrors]
  rfl

end Reader

/-- What is printed of a result, and whether it is a success. -/
structure Prints (result : CheckResult) (json : Bool) (out : Emitted) : Prop where
  line : json = true → out.stderr = [] ∧ ∃ line, out.stdout = line ++ ['\n'] ∧ '\n' ∉ line ∧
    readReport line = some (printed result)
  summary : json = false → out.stdout = [] ∧ out.stderr =
    (if result.ok then "ok=true namespace=".toList else "ok=false namespace=".toList) ++
      result.namespaceName ++ ['\n']
  success : out.success = result.ok

theorem emit_prints (result : CheckResult) (json : Bool) :
    Prints result json (emit result json) := by
  cases json with
  | false =>
    refine ⟨fun h => Bool.noConfusion h, fun _ => ⟨rfl, ?_⟩, rfl⟩
    cases hok : result.ok with
    | false =>
      rw [emit, hok]
      rfl
    | true =>
      rw [emit, hok]
      rfl
  | true =>
    exact ⟨fun _ => ⟨rfl, render result.json, rfl, newline_not_mem_render _, readReport_json _⟩,
      fun h => Bool.noConfusion h, rfl⟩

end FaninMcp.ReportLines
