import FaninMcp.ElicitationModel
import FaninMcp.MetaTools
import FaninMcp.RegistryWorld

/-!
# A session with the downstream client

The registry as the main task serves it: requests are dispatched from the
moment the handshake with the client is over, and the cell with its peer is
filled by the statement after that. Time passes in ticks and waits for nobody: a
timer fires at its deadline or later. An upstream may ask the client something
at any time, and is answered by the client or by a timer of its own.
-/

set_option autoImplicit false

namespace FaninMcp.SessionWorld
open Foundation.RustText Foundation.JsonText Foundation.AsyncPrograms FaninMcp.ConfigModel
  FaninMcp.RegistryModel FaninMcp.RegistryWorld FaninMcp.ElicitationModel FaninMcp.MetaTools

section States

/-- Where `run_serve` stands: before `serve` has returned, before it fills the
cell, and waiting for the session to end. -/
inductive Main where
  | starting
  | serving
  | waiting
  deriving DecidableEq

/-- Whether a task is in an attempt to connect, and what the cell held when its
handler was asked for its info. -/
inductive Handshake where
  | idle
  | begun
  | informed (cell : DownstreamPeerCell)

/-- An initialized upstream, with the content of the cell it was told about. -/
structure Connection where
  entry : Entry
  cell : DownstreamPeerCell

structure Elicitation where
  handler : UpstreamClientHandler
  expires : ℕ
  reply : Option (Except McpError CreateElicitationResult)

/-- What a session is served with: the file, the client, and how many ticks a
second has. -/
structure Setting where
  config : TomlConfig
  client : ClientInfo
  rate : ℕ

/-- `timers` has the deadlines of the timeouts tasks are in, and `cancelled` the
requests the client has cancelled. -/
structure Session where
  shared : Shared
  main : Main
  cell : DownstreamPeerCell
  handshakes : ℕ → Handshake
  connections : List Connection
  now : ℕ
  timers : ℕ → Option ℕ
  cancelled : ℕ → Bool
  elicitations : ℕ → Option Elicitation

def Session.initial (tools : Entry → List Tool) : Session where
  shared := Shared.initial tools
  main := .starting
  cell := none
  handshakes _ := .idle
  connections := []
  now := 0
  timers _ := none
  cancelled _ := false
  elicitations _ := none

end States

section Operations
variable (S : Setting)

/-- `Registry::effective_timeout`, in ticks. -/
def Setting.effectiveTimeout (server : Text) : ℕ :=
  S.rate * ((S.config.servers.lookup server).map (·.timeoutSecs)).getD 60

def Setting.handler (server : Text) : UpstreamClientHandler := ⟨server, S.effectiveTimeout server⟩

def handshakeAfter (handshake : Handshake) : Op → Handshake
  | .connectBegin _ => .begun
  | .connectEnd _ | .abandon => .idle
  | _ => handshake

def connectionsAfter (handshake : Handshake) (connections : List Connection) :
    (op : Op) → Ans op → List Connection
  | .serve _, .ok entry =>
    match handshake with
    | .informed cell => ⟨entry.1, cell⟩::connections
    | _ => connections
  | _, _ => connections

/-- The timeouts of a connection attempt, a refetch and a call: each begins
where its future is made, and ends where that has come to its end. -/
def timerAfter (now : ℕ) (timer : Option ℕ) : (op : Op) → Ans op → Option ℕ
  | .connectBegin server, _ => some (now + S.effectiveTimeout server)
  | .swapDirty entry, true => some (now + S.effectiveTimeout entry.server)
  | .release (.toolsRead entry), _ => some (now + S.effectiveTimeout entry.server)
  | .connectEnd _, _ | .listReply _, _ | .callReply _, _ | .abandon, _ => none
  | _, _ => timer

def Session.after (i : ℕ) (σ : Session) (op : Op) (ans : Ans op) : Session :=
  { σ with
    shared := effect i σ.shared op ans
    handshakes := Function.update σ.handshakes i (handshakeAfter (σ.handshakes i) op)
    connections := connectionsAfter (σ.handshakes i) σ.connections op ans
    timers := Function.update σ.timers i (timerAfter S σ.now (σ.timers i) op ans) }

def Session.due (σ : Session) (i : ℕ) : Bool := (σ.timers i).any (· ≤ σ.now)

/-- A handshake is over only after the handler has been asked for its info. A timer
has fired only when it is due, and the token only when the request is cancelled. -/
def Session.admits (i : ℕ) (σ : Session) : (op : Op) → Ans op → Bool
  | .serve _, .ok _ =>
    match σ.handshakes i with
    | .informed _ => true
    | _ => false
  | .poll, fired => !fired || σ.due i
  | .cancelled, fired => !fired || σ.cancelled i
  | _, _ => true

/-- What happens in a session without the program. `answered` is the client's
reply to a question, or its failure to give one. -/
inductive Happening where
  | registry (e : Outside)
  | initialized
  | setDownstreamPeer
  | getInfo (i : ℕ)
  | tick
  | cancel (i : ℕ)
  | elicit (k : ℕ) (entry : Entry) (request : CreateElicitationRequest)
  | answered (k : ℕ) (outcome : Except ServiceError CreateElicitationResult)
  | expired (k : ℕ)

/-- How `create_elicitation` begins, at the time `now`. -/
def startElicitation (handler : UpstreamClientHandler) (cell : DownstreamPeerCell) (now : ℕ)
    (request : CreateElicitationRequest) : Elicitation :=
  match handler.createElicitation cell request with
  | .forwarded _ _ timeout => ⟨handler, now + timeout, none⟩
  | .answered reply => ⟨handler, now, some reply⟩

def Elicitation.settle {ε : Type} (elicitation : Elicitation)
    (outcome : Except ε CreateElicitationResult) : Elicitation :=
  { elicitation with reply := some (elicitation.handler.relay outcome) }

def Session.setElicitation (σ : Session) (k : ℕ) (elicitation : Elicitation) : Session :=
  { σ with elicitations := Function.update σ.elicitations k (some elicitation) }

def Session.pending (σ : Session) (k : ℕ) : Option Elicitation :=
  (σ.elicitations k).filter fun elicitation => elicitation.reply.isNone

def Session.connected (σ : Session) (entry : Entry) : Bool :=
  σ.connections.any fun connection => connection.entry = entry

def Session.outside (σ : Session) : Happening → Option Session
  | .registry e => (σ.shared.outside e).map fun shared => { σ with shared := shared }
  | .initialized => if σ.main = .starting then some { σ with main := .serving } else none
  | .setDownstreamPeer =>
    if σ.main = .serving then
      some { σ with main := .waiting, cell := setPeer σ.cell ⟨some S.client⟩ }
    else none
  | .getInfo i =>
    match σ.handshakes i with
    | .begun => some { σ with handshakes := Function.update σ.handshakes i (.informed σ.cell) }
    | _ => none
  | .tick => some { σ with now := σ.now + 1 }
  | .cancel i => some { σ with cancelled := Function.update σ.cancelled i true }
  | .elicit k entry request =>
    if σ.connected entry && (σ.elicitations k).isNone then
      some (σ.setElicitation k (startElicitation (S.handler entry.server) σ.cell σ.now request))
    else none
  | .answered k outcome =>
    (σ.pending k).map fun elicitation => σ.setElicitation k (elicitation.settle outcome)
  | .expired k =>
    match σ.pending k with
    | some elicitation =>
      if elicitation.expires ≤ σ.now then
        some (σ.setElicitation k (elicitation.settle (.error "timeout".toList)))
      else none
    | none => none

abbrev sessionWorld : World registryOps where
  State := Session
  Env := Happening
  Performs i σ op ans σ' :=
    Answers i σ.shared op ans ∧ σ.admits i op ans = true ∧ σ' = σ.after S i op ans
  outside := Session.outside S
  release i σ :=
    { σ with
      shared := σ.shared.forget i
      handshakes := Function.update σ.handshakes i .idle
      timers := Function.update σ.timers i none
      cancelled := Function.update σ.cancelled i false }

def sessionResponder : Responder (sessionWorld S) where
  Hint := Hint
  respond hint i σ op := (answer hint i σ.shared op).bind fun ans =>
    if σ.admits i op ans then some (ans, σ.after S i op ans) else none
  sound hint i σ op ans σ' h := by
    obtain ⟨given, hgiven, hadmits⟩ := Option.bind_eq_some_iff.mp h
    split_ifs at hadmits with hok
    cases hadmits
    exact ⟨answer_sound hint i σ.shared op _ hgiven, hok, rfl⟩

/-- Each thing that happens, with what it needs and what it does. -/
inductive Happens (σ : Session) : Happening → Session → Prop
  | registry {e : Outside} {shared : Shared} : σ.shared.outside e = some shared →
      Happens σ (.registry e) { σ with shared := shared }
  | initialized : σ.main = .starting → Happens σ .initialized { σ with main := .serving }
  | setDownstreamPeer : σ.main = .serving → Happens σ .setDownstreamPeer
      { σ with main := .waiting, cell := setPeer σ.cell ⟨some S.client⟩ }
  | getInfo {i : ℕ} : σ.handshakes i = .begun → Happens σ (.getInfo i)
      { σ with handshakes := Function.update σ.handshakes i (.informed σ.cell) }
  | tick : Happens σ .tick { σ with now := σ.now + 1 }
  | cancel {i : ℕ} : Happens σ (.cancel i)
      { σ with cancelled := Function.update σ.cancelled i true }
  | elicit {k : ℕ} {entry : Entry} {request : CreateElicitationRequest} :
      σ.connected entry = true → σ.elicitations k = none → Happens σ (.elicit k entry request)
        (σ.setElicitation k (startElicitation (S.handler entry.server) σ.cell σ.now request))
  | answered {k : ℕ} {outcome : Except ServiceError CreateElicitationResult}
      {elicitation : Elicitation} : σ.pending k = some elicitation →
      Happens σ (.answered k outcome) (σ.setElicitation k (elicitation.settle outcome))
  | expired {k : ℕ} {elicitation : Elicitation} : σ.pending k = some elicitation →
      elicitation.expires ≤ σ.now → Happens σ (.expired k)
        (σ.setElicitation k (elicitation.settle (.error "timeout".toList)))

variable {S} {σ σ' : Session} {happening : Happening}

theorem outside_happens (h : σ.outside S happening = some σ') : Happens S σ happening σ' := by
  cases happening <;> simp only [Session.outside] at h
  case registry e =>
    obtain ⟨_, hshared, rfl⟩ := Option.map_eq_some_iff.mp h
    exact .registry hshared
  case initialized =>
    split_ifs at h with hmain
    cases h
    exact .initialized hmain
  case setDownstreamPeer =>
    split_ifs at h with hmain
    cases h
    exact .setDownstreamPeer hmain
  case getInfo i =>
    split at h
    · rename_i hbegun
      cases h
      exact .getInfo hbegun
    · cases h
  case tick =>
    cases h
    exact .tick
  case cancel =>
    cases h
    exact .cancel
  case elicit k entry request =>
    split_ifs at h with hfree
    cases h
    obtain ⟨hconnected, hnone⟩ := Bool.and_eq_true_iff.mp hfree
    exact .elicit hconnected (Option.isNone_iff_eq_none.mp hnone)
  case answered k outcome =>
    obtain ⟨_, hpending, rfl⟩ := Option.map_eq_some_iff.mp h
    exact .answered hpending
  case expired k =>
    split at h
    · rename_i hpending
      split_ifs at h with hdue
      cases h
      exact .expired hpending hdue
    · cases h

end Operations

section Sessions
variable {S : Setting} {agg : Aggregator}

abbrev SessionEvent (S : Setting) (agg : Aggregator) := Event (sessionWorld S) (metaService agg)

abbrev SessionSystem (S : Setting) (agg : Aggregator) := System (sessionWorld S) (metaService agg)

/-- Requests come in once the handshake with the client is over, each under an
id of its own. -/
def Dispatched (es : List (SessionEvent S agg)) (σ : Session) : SessionEvent S agg → Prop
  | .spawn i _ => σ.main ≠ .starting ∧ ∀ e ∈ es, e.task ≠ some i
  | _ => True

def registryEvent : SessionEvent S agg → Option (Event registryWorld (metaService agg))
  | .spawn i request => some (.spawn i request)
  | .act i op ans => some (.act i op ans)
  | .finish i request reply => some (.finish i request reply)
  | .drop i => some (.drop i)
  | .outside (.registry e) => some (.outside e)
  | .outside _ => none

variable {σ σ' : SessionSystem S agg} {e : SessionEvent S agg}

theorem registry_step (h : Step σ e σ') {event : Event registryWorld (metaService agg)}
    (he : registryEvent e = some event) : Step (W := registryWorld) ⟨σ.shared.shared, σ.tasks⟩ event
      ⟨σ'.shared.shared, σ'.tasks⟩ := by
  cases h with
  | spawn request hi =>
    cases he
    exact Step.spawn (W := registryWorld) request hi
  | act hi hp =>
    cases he
    obtain ⟨ha, _, rfl⟩ := hp
    exact Step.act (W := registryWorld) hi ⟨ha, rfl⟩
  | finish hi =>
    cases he
    exact Step.finish (W := registryWorld) hi
  | drop hi hw =>
    cases he
    exact Step.drop (W := registryWorld) hi hw
  | @outside happening shared ho =>
    cases happening <;> cases he
    obtain ⟨_, hshared, rfl⟩ := Option.map_eq_some_iff.mp ho
    exact Step.outside (W := registryWorld) hshared

theorem registry_still (h : Step σ e σ') (he : registryEvent e = none) :
    σ'.shared.shared = σ.shared.shared ∧ σ'.tasks = σ.tasks := by
  cases h with
  | spawn | act | finish | drop => cases he
  | outside ho =>
    cases outside_happens ho with
    | registry _ => cases he
    | initialized _ | setDownstreamPeer _ | getInfo _ | tick | cancel | elicit _ _ | answered _
    | expired _ _ => exact ⟨rfl, rfl⟩

theorem registry_run {tools : Entry → List Tool}
    {K : List (SessionEvent S agg) → Session → SessionEvent S agg → Prop}
    {es : List (SessionEvent S agg)} (h : Run (Session.initial tools) K es σ) :
    Run (W := registryWorld) (Shared.initial tools) (fun _ _ _ => True) (es.filterMap registryEvent)
      ⟨σ.shared.shared, σ.tasks⟩ := by
  induction h with
  | start => exact Run.start
  | @step es σ σ' e _ _ hs ih =>
    cases he : registryEvent e with
    | some event =>
      rw [List.filterMap_cons_some he]
      exact Run.step ih trivial (registry_step hs he)
    | none =>
      rw [List.filterMap_cons_none he]
      obtain ⟨hshared, htasks⟩ := registry_still hs he
      rw [hshared, htasks]
      exact ih

end Sessions

end FaninMcp.SessionWorld
