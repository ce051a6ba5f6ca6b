import FaninMcp.Foundation.JsonText

/-!
# Elicitation

An upstream may ask the downstream client something in the middle of a call.
The cell with the downstream peer decides twice: when an upstream is told what
its client can do, and when it asks. Between the two the cell may be filled, so
that what is true of one content of the cell need not be true of a connection.
-/

set_option autoImplicit false

namespace FaninMcp.ElicitationModel
open Foundation.RustText Foundation.JsonText

section Peers

structure ClientCapabilities where
  elicitation : Option JsonObject := none

structure Implementation where
  name : Text
  version : Text

structure ClientInfo where
  capabilities : ClientCapabilities
  clientInfo : Implementation

/-- A handle to the downstream client, with what it sent at `initialize`. -/
structure Peer where
  peerInfo : Option ClientInfo

/-- The content of the `Arc<OnceLock<Peer<RoleServer>>>`. -/
abbrev DownstreamPeerCell := Option Peer

/-- `OnceLock::set`: the first one stays. -/
def setPeer (cell : DownstreamPeerCell) (peer : Peer) : DownstreamPeerCell :=
  match cell with
  | some first => some first
  | none => some peer

def downstreamElicitationAvailable (cell : DownstreamPeerCell) : Option Peer :=
  match cell with
  | none => none
  | some peer =>
    let declared := (peer.peerInfo.map fun info => info.capabilities.elicitation.isSome).getD false
    if declared then some peer else none

/-- `env!("CARGO_PKG_VERSION")`. -/
def cargoPkgVersion : Text := "1.2.1".toList

def getInfo (cell : DownstreamPeerCell) : ClientInfo :=
  let capabilities : ClientCapabilities :=
    if (downstreamElicitationAvailable cell).isSome then { elicitation := some [] } else {}
  ⟨capabilities, ⟨"fanin-mcp".toList, cargoPkgVersion⟩⟩

end Peers

section Forwarding

inductive ElicitationAction where
  | accept
  | decline
  | cancel
  deriving DecidableEq

structure CreateElicitationRequest where
  message : Text
  requestedSchema : JsonObject

structure CreateElicitationResult where
  action : ElicitationAction
  content : Option Json

inductive McpError where
  | invalidRequest (message : Text) (data : Option Json)

/-- The handler of one upstream; the cell it shares is read when it is needed. -/
structure UpstreamClientHandler where
  server : Text
  effectiveTimeout : ℕ

def UpstreamClientHandler.errorData (handler : UpstreamClientHandler) (code : Text)
    (recoverable : Bool) : Json :=
  .obj [("code".toList, .str code), ("recoverable".toList, .bool recoverable),
    ("server".toList, .str handler.server)]

def UpstreamClientHandler.rejection (handler : UpstreamClientHandler) : McpError :=
  .invalidRequest
    "fanin-mcp does not support upstream elicitation requests in this session".toList
    (some (handler.errorData "elicitation_rejected".toList false))

def UpstreamClientHandler.nonAccept (handler : UpstreamClientHandler) : McpError :=
  .invalidRequest "fanin-mcp forwarded elicitation resolved to non-accept".toList
    (some (handler.errorData "elicitation_non_accept".toList true))

/-- Where `create_elicitation` stands after its first look at the cell: it waits
for the peer, for as long as the timeout, or has an answer. -/
inductive Elicited where
  | forwarded (peer : Peer) (request : CreateElicitationRequest) (timeout : ℕ)
  | answered (reply : Except McpError CreateElicitationResult)

def UpstreamClientHandler.createElicitation (handler : UpstreamClientHandler)
    (cell : DownstreamPeerCell) (request : CreateElicitationRequest) : Elicited :=
  match downstreamElicitationAvailable cell with
  | some peer => .forwarded peer request handler.effectiveTimeout
  | none => .answered (.error handler.rejection)

/-- What the upstream is answered once the forwarded request has come to an end:
a result as it is, a failure of any kind as a refusal. -/
def UpstreamClientHandler.relay {ε : Type} (handler : UpstreamClientHandler) :
    Except ε CreateElicitationResult → Except McpError CreateElicitationResult
  | .ok result => .ok result
  | .error _ => .error handler.nonAccept

end Forwarding

section Gates
variable {cell : DownstreamPeerCell} {handler : UpstreamClientHandler}
  {request : CreateElicitationRequest}

def Declares (client : ClientInfo) : Prop := client.capabilities.elicitation.isSome = true

instance (client : ClientInfo) : Decidable (Declares client) :=
  inferInstanceAs (Decidable (_ = true))

def Forwards (handler : UpstreamClientHandler) (cell : DownstreamPeerCell) : Prop :=
  ∀ request, ∃ peer, handler.createElicitation cell request =
    .forwarded peer request handler.effectiveTimeout

def Advertises (cell : DownstreamPeerCell) : Prop :=
  (getInfo cell).capabilities.elicitation.isSome = true

theorem advertises_iff : Advertises cell ↔ (downstreamElicitationAvailable cell).isSome = true := by
  rw [Advertises, getInfo]
  split_ifs with h <;> simp [h]

theorem forwards_iff : Forwards handler cell ↔
    (downstreamElicitationAvailable cell).isSome = true := by
  constructor
  · intro hf
    obtain ⟨peer, hp⟩ := hf ⟨[], []⟩
    rw [UpstreamClientHandler.createElicitation] at hp
    split at hp
    · rename_i h
      rw [h]
      rfl
    · cases hp
  · intro h request
    obtain ⟨peer, hp⟩ := Option.isSome_iff_exists.mp h
    exact ⟨peer, by rw [UpstreamClientHandler.createElicitation, hp]⟩

theorem advertises_forwards : Advertises cell ↔ Forwards handler cell :=
  advertises_iff.trans forwards_iff.symm

theorem available_none : (downstreamElicitationAvailable none).isSome = false := rfl

theorem available_some (client : ClientInfo) :
    (downstreamElicitationAvailable (some ⟨some client⟩)).isSome = true ↔ Declares client := by
  cases h : client.capabilities.elicitation with
  | none => simp [downstreamElicitationAvailable, Declares, h]
  | some declared => simp [downstreamElicitationAvailable, Declares, h]

theorem relay_ok {ε : Type} {outcome : Except ε CreateElicitationResult}
    {result : CreateElicitationResult} (h : handler.relay outcome = .ok result) :
    outcome = .ok result := by
  cases outcome with
  | ok given =>
    cases h
    rfl
  | error _ => cases h

end Gates

end FaninMcp.ElicitationModel
