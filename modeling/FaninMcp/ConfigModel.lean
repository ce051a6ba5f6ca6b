import FaninMcp.Foundation.RustText
import Mathlib.Data.Char
import Mathlib.Data.Finset.Sort
import Mathlib.Data.List.AList
import Mathlib.Data.List.Lex

/-!
# The configuration file

Servers, namespaces and the errors that stop a startup. A hash map is an
association list without duplicate keys, in whatever order it is iterated;
a hash set is a finite set. `u64` seconds are natural numbers.
-/

set_option autoImplicit false

namespace FaninMcp.ConfigModel
open Foundation.RustText

/-- `HashMap<String, V>`. -/
abbrev TextMap (V : Type) := AList (fun _ : Text => V)

section Order

-- `Ord for String`: names are sorted by their scalars.
instance textLeTrans : IsTrans Text fun a b => a ≤ b := ⟨fun _ _ _ => le_trans⟩

instance textLeAntisymm : Std.Antisymm fun a b : Text => a ≤ b := ⟨fun _ _ => le_antisymm⟩

instance textLeTotal : Std.Total fun a b : Text => a ≤ b := ⟨le_total⟩

end Order

def defaultNamespace : Text := "default".toList

/-- The name a selection stands for: an empty one is the default namespace. -/
def selectedNamespace (selected : Text) : Text :=
  if selected.isEmpty then defaultNamespace else selected

/-- The largest number of `extends` links followed from one namespace. -/
def maxNamespaceInheritanceDepth : ℕ := 64

structure ServerConfig where
  transport : Option Text := none
  command : Option Text := none
  endpoint : Option Text := none
  args : List Text := []
  description : Option Text := none
  cwd : Option Text := none
  env : TextMap Text := ∅
  headers : TextMap Text := ∅
  logFile : Option Text := none
  timeoutSecs : ℕ := 60

/-- `tools` maps a server to an exact allow-list of tool names; a server
without an entry exposes all its tools. -/
structure NamespaceConfig where
  servers : List Text := []
  «extends» : List Text := []
  tools : TextMap (List Text) := ∅

structure TomlConfig where
  servers : TextMap ServerConfig := ∅
  namespaces : TextMap NamespaceConfig := ∅

inductive StartupError where
  | readConfig (error : Text)
  | parseConfig (error : Text)
  | invalidServerName (server reason : Text)
  | unsupportedTransport (server transport : Text)
  | stdioServerMissingCommand (server : Text)
  | httpServerMissingEndpoint (server : Text)
  | emptyCwd (server : Text)
  | unknownNamespace (namespaceName : Text)
  | unknownNamespaceParent (namespaceName parent : Text)
  | namespaceExtendsCycle (namespaceName : Text)
  | namespaceInheritanceTooDeep (namespaceName : Text) (maxDepth : ℕ)
  | effectiveServerUnknown (namespaceName server : Text)
  | toolFilterUnknownServer (namespaceName server : Text)
  deriving DecidableEq

/-- `impl Display for StartupError`. -/
def StartupError.display : StartupError → Text
  | .readConfig e => "failed to read config file: ".toList ++ e
  | .parseConfig e => "failed to parse config file as TOML: ".toList ++ e
  | .invalidServerName server reason =>
    "invalid server name `".toList ++ server ++ "`: ".toList ++ reason
  | .unsupportedTransport server transport =>
    "unsupported transport `".toList ++ transport ++ "` for server `".toList ++ server ++
      "`; supported transports are `stdio` and `streamable-http`".toList
  | .stdioServerMissingCommand server =>
    "stdio server `".toList ++ server ++ "` is missing the required `command` field".toList
  | .httpServerMissingEndpoint server =>
    "streamable-http server `".toList ++ server ++
      "` is missing the required `endpoint` field".toList
  | .emptyCwd server =>
    "server `".toList ++ server ++ "` has empty or whitespace-only `cwd`".toList
  | .unknownNamespace ns =>
    "unknown namespace `".toList ++ ns ++ "`; not present in [namespaces]".toList
  | .unknownNamespaceParent ns parent =>
    "namespace `".toList ++ ns ++ "` extends unknown parent `".toList ++ parent ++
      "`; add the parent to [namespaces] or remove it from `extends`".toList
  | .namespaceExtendsCycle ns =>
    "namespace inheritance cycle detected at `".toList ++ ns ++ "`".toList
  | .namespaceInheritanceTooDeep ns maxDepth =>
    "namespace inheritance for `".toList ++ ns ++ "` exceeds the maximum depth of ".toList ++
      (toString maxDepth).toList
  | .effectiveServerUnknown ns server =>
    "namespace `".toList ++ ns ++ "` effectively allows server `".toList ++ server ++
      "`, but it is not declared in [servers]".toList
  | .toolFilterUnknownServer ns server =>
    "namespace `".toList ++ ns ++ "` has a `tools.".toList ++ server ++ "` filter but `".toList ++
      server ++ ("` is not in that namespace's effective server allow-list; declare or inherit " ++
        "the server, or remove the stray `tools` key (an allowed server with no `tools` entry " ++
        "exposes all tools)").toList

def ServerConfig.transportKind (server : ServerConfig) : Text :=
  server.transport.getD "stdio".toList

/-- The characters of `[a-z0-9-]`. -/
def isServerNameChar (c : Char) : Bool :=
  ('a' ≤ c && c ≤ 'z') || ('0' ≤ c && c ≤ '9') || c == '-'

def validateServerName (name : Text) : Except StartupError Unit :=
  if name.isEmpty then
    .error (.invalidServerName name "server name must not be empty".toList)
  else if name.all isServerNameChar then .ok ()
  else
    let bad := name.filter (fun c => !isServerNameChar c)
    .error (.invalidServerName name
      ("server name must match [a-z0-9-]+; found disallowed character(s): ".toList ++ bad))

theorem validateServerName_ok {name : Text} :
    validateServerName name = .ok () ↔ name ≠ [] ∧ ∀ c ∈ name, isServerNameChar c = true := by
  cases name with
  | nil => simp [validateServerName]
  | cons c cs =>
    simp only [validateServerName, List.isEmpty_cons, Bool.false_eq_true, if_false]
    split_ifs with h
    · simpa using h
    · simpa using h

end FaninMcp.ConfigModel
