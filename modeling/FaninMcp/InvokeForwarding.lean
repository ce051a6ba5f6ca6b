import FaninMcp.PermissionLayer
import FaninMcp.RegistryWalk

/-!
# A call is forwarded once

An upstream tool may do anything, so a client has to know whether a call it made
has reached one. A request sends at most one `tools/call`, for the tool and with
the arguments it names. A result is the upstream's answer to that call as it
came in, and an error says whether anything was sent.
-/

set_option autoImplicit false

namespace FaninMcp.InvokeForwarding
open Foundation.RustText Foundation.JsonText Foundation.AsyncPrograms FaninMcp.ConfigModel
  FaninMcp.ErrorModel FaninMcp.NamespaceAcl FaninMcp.RegistryModel FaninMcp.RegistryWorld
  FaninMcp.RegistryProtocol FaninMcp.RegistryWalk FaninMcp.MetaTools FaninMcp.MetaAcl

structure Sent where
  entry : Entry
  tool : Text
  arguments : Option JsonObject

/-- What a task has sent since it began, the latest first, and the latest answer
to a call. -/
structure Forwarding where
  sent : List Sent := []
  answer : Option (Except ServiceError CallToolResult) := none

def sending (φ : Forwarding) : (op : Op) → Ans op → Forwarding
  | .callRequest entry tool arguments, _ => { φ with sent := ⟨entry, tool, arguments⟩ :: φ.sent }
  | .callReply _, reply => { φ with answer := some reply }
  | _, _ => φ

structure Asks (request : Request) (call : Sent) : Prop where
  invokes : request.name = "invoke_tool".toList
  named : ∃ args name, request.arguments = some args ∧
    (get args "name".toList).bind Json.asStr = some name ∧
    parseServerTool name = some (call.entry.server, call.tool)
  verbatim : ∃ args object, request.arguments = some args ∧
    get args "arguments".toList = some (.obj object) ∧ call.arguments = some object

def maySend (asked : Sent → Prop) (φ : Forwarding) : Op → Prop
  | .callRequest entry tool arguments =>
    φ.sent = [] ∧ φ.answer = none ∧ asked ⟨entry, tool, arguments⟩
  | .callReply _ => φ.sent ≠ [] ∧ φ.answer = none
  | _ => True

abbrev forwarding (asked : Sent → Prop) : Protocol registryOps :=
  ⟨Forwarding, {}, maySend asked, sending⟩

/-- The reply to a call that was sent, by what has come back for it. -/
inductive Settles (call : Sent) : Option (Except ServiceError CallToolResult) → Reply → Prop
  | relayed (out : CallToolResult) : Settles call (some (.ok out)) (.result out)
  | failed (e : ServiceError) : Settles call (some (.error e))
      (.failed (mapServiceError e call.entry.server call.tool))
  | timedOut : Settles call none (.failed (.upstreamTimeout call.entry.server (some call.tool)))
  | cancelled : Settles call none (.failed (.callCancelled call.entry.server call.tool))

inductive Accounts (asked : Sent → Prop) (reply : Reply) : Forwarding → Prop
  | unsent (h : ∀ out, reply ≠ .result out) : Accounts asked reply {}
  | sent {call : Sent} {answer : Option (Except ServiceError CallToolResult)} (h : asked call)
      (hs : Settles call answer reply) : Accounts asked reply ⟨[call], answer⟩

def Once (asked : Sent → Prop) (φ : Forwarding) : Prop :=
  φ.sent.length ≤ 1 ∧ ∀ call ∈ φ.sent, asked call

section Quiet
variable {asked : Sent → Prop} {φ : Forwarding}

/-- The operations that neither send a call nor wait for an answer to one. -/
def Quiet : Op → Prop
  | .callRequest _ _ _ | .callReply _ => False
  | _ => True

theorem quiet_may {op : Op} (h : Quiet op) : maySend asked φ op := by
  cases op <;> first | exact trivial | exact h.elim

theorem quiet_sending {op : Op} (h : Quiet op) (ans : Ans op) : sending φ op ans = φ := by
  cases op <;> first | rfl | exact h.elim

theorem once_after {op : Op} (hmay : maySend asked φ op) (h : Once asked φ) (ans : Ans op) :
    Once asked (sending φ op ans) := by
  by_cases hquiet : Quiet op
  · rwa [quiet_sending hquiet]
  · cases op with
    | callRequest entry tool arguments =>
      obtain ⟨hnone, _, hask⟩ := hmay
      simpa [Once, sending, hnone] using hask
    | callReply entry => exact h
    | _ => exact absurd trivial hquiet

theorem connects_quiet {server : Text} {op : Op} (h : Connects server op) : Quiet op := by
  cases op <;> first | exact trivial | exact absurd h.2 (by simp [isUse])

theorem getOrConnect_quiet (config : TomlConfig) (server : Text) :
    (getOrConnect config server).All Quiet (Fails fun _ => True) :=
  all_mono (fun _ h => connects_quiet h) (fun _ _ _ _ => trivial) (getOrConnect_connects config)

theorem refreshes_quiet {op : Op} (h : Refreshes op) : Quiet op := by
  cases op <;> first | exact trivial | exact h.elim

theorem ensureFresh_quiet (entry : Entry) (server : Text) :
    (ensureFresh entry server).All Quiet (Fails fun _ => True) :=
  all_mono (fun _ h => refreshes_quiet h) (fun _ _ _ _ => trivial)
    (ensureFresh_refreshes entry server)

theorem readInventory_quiet (entry : Entry) :
    (readInventory entry).All Quiet (fun _ => True) :=
  all_mono (fun _ h => refreshes_quiet h) (fun _ h => h) (readInventory_refreshes entry)

theorem inventory_quiet (config : TomlConfig) (server : Text) :
    (inventory config server).All Quiet (Fails fun _ => True) :=
  fails_only.mp (inventory_walk (fails_only.mpr (getOrConnect_quiet config server))
    (fun entry _ _ => fails_only.mpr (ensureFresh_quiet entry.1 server))
    (fun entry _ _ => obeys_only.mpr (readInventory_quiet entry.1)) fun _ _ _ _ => trivial)

def Unsent (reply : Reply) : Prop := ∀ out, reply ≠ .result out

theorem failed_unsent (e : ToolError) : Unsent (.failed e) := fun _ h => by cases h

theorem listRows_quiet (config : TomlConfig) (active : ActiveNamespace) (servers : List Text) :
    (listRows config active servers []).All Quiet Unsent :=
  obeys_only.mp (listRows_walk servers
    (fun server _ _ _ => fails_only.mpr (inventory_quiet config server))
    (fun _ _ _ _ h => by cases h) (fun _ _ _ => failed_unsent _) (fun e _ _ => failed_unsent e)
    [] trivial)

end Quiet

section Calls
variable {asked : Sent → Prop} {server tool : Text}

/-- Until the answer is in, a call can still be given up. -/
inductive Unanswered (asked : Sent → Prop) (server tool : Text) : Forwarding → Prop
  | unsent : Unanswered asked server tool {}
  | sent {call : Sent} (h : asked call) (hs : call.entry.server = server) (ht : call.tool = tool) :
      Unanswered asked server tool ⟨[call], none⟩

theorem quiet_within {φ : Forwarding} {I : Forwarding → Prop} (hI : I φ) {op : Op} (h : Quiet op) :
    ((forwarding asked).within I).may φ op ∧
      ∀ ans, ((forwarding asked).within I).after φ op ans = φ :=
  ⟨⟨quiet_may h, hI⟩, quiet_sending h⟩

theorem timed_forwardCall (entry : Entry) (tool : Text) (arguments : Option JsonObject) :
    timed (forwardCall entry tool arguments) = .act .poll (fun fired => if fired then .done none
      else .act (.callRequest entry tool arguments) (fun _ => .act .poll (fun fired =>
        if fired then .done none
        else .act (.callReply entry) (fun reply => .done (some reply))))) := rfl

theorem obeys_forwardCall {entry : Entry} {arguments : Option JsonObject}
    (hs : entry.server = server) (hask : asked ⟨entry, tool, arguments⟩) :
    Obeys ((forwarding asked).within (Unanswered asked server tool))
      (Called server tool (fun out => Accounts asked (.result out))
        fun e => Accounts asked (.failed e))
      (timed (forwardCall entry tool arguments)) {} := by
  subst hs
  rw [timed_forwardCall]
  refine ⟨⟨trivial, .unsent⟩, fun fired => ?_⟩
  cases fired with
  | true => exact .unsent (failed_unsent _)
  | false =>
    refine ⟨⟨⟨rfl, rfl, hask⟩, .unsent⟩, fun _ => ⟨⟨trivial, .sent hask rfl rfl⟩, fun fired => ?_⟩⟩
    cases fired with
    | true => exact .sent hask .timedOut
    | false =>
      refine ⟨⟨⟨List.cons_ne_nil _ _, rfl⟩, .sent hask rfl rfl⟩, fun reply => ?_⟩
      cases reply with
      | error e => exact .sent hask (.failed e)
      | ok result => exact .sent hask (.relayed result)

theorem obeys_callTool (config : TomlConfig) {arguments : Option JsonObject}
    (hask : ∀ entry : Entry, entry.server = server → asked ⟨entry, tool, arguments⟩) :
    Obeys ((forwarding asked).within (Unanswered asked server tool))
      (Comes (fun out => Accounts asked (.result out)) fun e => Accounts asked (.failed e))
      (callTool config server tool arguments) {} := by
  have hunsent : Unanswered asked server tool {} := .unsent
  have hquiet := fun op (h : Quiet op) => @quiet_within asked _ _ hunsent op h
  have hpart : ∀ {α : Type} {p : RegistryProg (Outcome α)}, p.All Quiet (Fails fun _ => True) →
      Obeys ((forwarding asked).within (Unanswered asked server tool))
        (Comes (fun _ φ => φ = {}) fun e => Accounts asked (.failed e)) p {} := by
    intro α p hp
    refine obeys_quiet hquiet (fun out _ => ?_) hp
    cases out with
    | error e => exact .unsent (failed_unsent e)
    | ok a => exact rfl
  have hrefresh : ∀ (entry : EntryOf server) φ, φ = {} →
      Obeys ((forwarding asked).within (Unanswered asked server tool))
        (Comes (fun _ φ => φ = {}) fun e => Accounts asked (.failed e))
        (ensureFresh entry.1 server) φ := by
    rintro entry _ rfl
    exact hpart (ensureFresh_quiet entry.1 server)
  have hread : ∀ (entry : EntryOf server) φ, φ = {} →
      Obeys ((forwarding asked).within (Unanswered asked server tool)) (fun _ φ => φ = {})
        (readInventory entry.1) φ := by
    rintro entry _ rfl
    exact obeys_quiet hquiet (fun _ _ => rfl) (readInventory_quiet entry.1)
  refine callTool_walk (hpart (getOrConnect_quiet config server)) hrefresh hread ?_ ?_
  · rintro entry listing _ rfl
    exact .unsent (failed_unsent _)
  · rintro entry listing _ rfl _
    exact obeys_forwardCall entry.2 (hask entry.1 entry.2)

theorem obeys_invokeRaced (config : TomlConfig) {arguments : JsonObject}
    (hask : ∀ entry : Entry, entry.server = server → asked ⟨entry, tool, some arguments⟩) :
    Obeys (forwarding asked) (Accounts asked) (invokeRaced config server tool arguments) {} := by
  have hfallback : ∀ φ, Unanswered asked server tool φ → Obeys (forwarding asked) (Accounts asked)
      (do
        doing .abandon
        return .failed (.callCancelled server tool)) φ := by
    intro φ hφ
    refine ⟨trivial, fun _ => ?_⟩
    cases hφ with
    | unsent => exact .unsent (failed_unsent _)
    | sent h hs ht => exact .sent h (hs ▸ ht ▸ .cancelled)
  have hcall := obeys_within_mono hfallback (obeys_callTool config hask)
  apply obeys_interruptible (fun _ => trivial) (fun _ _ => rfl)
  refine obeys_bind (obeys_mono (fun outcome φ hφ => ?_) hcall)
  cases outcome <;> exact hφ

end Calls

section Requests

theorem asObject_some {json : Json} {object : JsonObject} (h : json.asObject = some object) :
    json = .obj object := by
  cases json <;> cases h
  rfl

theorem obeys_unsent {asked : Sent → Prop} {p : RegistryProg Reply} (h : p.All Quiet Unsent) :
    Obeys (forwarding asked) (Accounts asked) p {} :=
  obeys_quiet (fun _ hq => ⟨quiet_may hq, quiet_sending hq⟩) (fun _ hr => .unsent hr) h

theorem listTools_quiet (agg : Aggregator) (arguments : Option JsonObject) :
    (handleListTools agg arguments).All Quiet Unsent := by
  rw [handleListTools.eq_def]
  rcases agg with ⟨_ | config, _ | active⟩
  · exact failed_unsent _
  · exact failed_unsent _
  · exact failed_unsent _
  cases stringArgument arguments "server".toList with
  | none => exact listRows_quiet config active _
  | some server =>
    dsimp only
    split_ifs
    · exact failed_unsent _
    · exact failed_unsent _
    · exact listRows_quiet config active _

theorem getToolSchema_quiet (agg : Aggregator) (arguments : Option JsonObject) :
    (handleGetToolSchema agg arguments).All Quiet Unsent := by
  rw [handleGetToolSchema.eq_def]
  cases stringArgument arguments "name".toList with
  | none => exact failed_unsent _
  | some name =>
    dsimp only
    rcases parseServerTool name with _ | ⟨server, tool⟩
    · exact failed_unsent _
    rcases agg with ⟨_ | config, _ | active⟩
    · exact failed_unsent _
    · exact failed_unsent _
    · exact failed_unsent _
    dsimp only
    split_ifs
    · exact failed_unsent _
    · exact failed_unsent _
    · refine all_bind (all_mono (fun _ hq => hq) (fun out _ => ?_) (inventory_quiet config server))
      rcases out with e | tools
      · exact failed_unsent e
      dsimp only
      cases tools.find? (fun t => t.name = tool) with
      | none => exact failed_unsent _
      | some found => exact fun _ h => by cases h

theorem obeys_invokeTool (agg : Aggregator) {request : Request}
    (hname : request.name = "invoke_tool".toList) :
    Obeys (forwarding (Asks request)) (Accounts (Asks request))
      (handleInvokeTool agg request.arguments) {} := by
  rw [handleInvokeTool.eq_def]
  cases hargs : request.arguments with
  | none => exact .unsent (failed_unsent _)
  | some args =>
    dsimp only
    cases hstr : (get args "name".toList).bind Json.asStr with
    | none => exact .unsent (failed_unsent _)
    | some name =>
      dsimp only
      rcases hparse : parseServerTool name with _ | ⟨server, tool⟩
      · exact .unsent (failed_unsent _)
      rcases agg with ⟨_ | config, _ | active⟩
      · exact .unsent (failed_unsent _)
      · exact .unsent (failed_unsent _)
      · exact .unsent (failed_unsent _)
      dsimp only
      split_ifs
      · exact .unsent (failed_unsent _)
      · exact .unsent (failed_unsent _)
      cases hraw : get args "arguments".toList with
      | none => exact .unsent (failed_unsent _)
      | some raw =>
        dsimp only
        cases hobject : raw.asObject with
        | none => exact .unsent (failed_unsent _)
        | some object =>
          refine obeys_invokeRaced config fun entry hentry => ⟨hname, ?_, ?_⟩
          · exact ⟨args, name, hargs, hstr, hentry ▸ hparse⟩
          · exact ⟨args, object, hargs, hraw.trans (congrArg some (asObject_some hobject)), rfl⟩

theorem dispatch_obeys_once (agg : Aggregator) (request : Request) :
    Obeys (forwarding (Asks request)) (Accounts (Asks request)) (dispatchTool agg request) {} := by
  rw [dispatchTool]
  split_ifs with _ _ hname
  · exact obeys_unsent (listTools_quiet agg request.arguments)
  · exact obeys_unsent (getToolSchema_quiet agg request.arguments)
  · exact obeys_invokeTool agg hname
  · exact .unsent (failed_unsent _)

end Requests

abbrev forwarded : Protocol registryOps := ⟨Forwarding, {}, fun _ _ => True, sending⟩

/-- In every run, whatever the world answers: a request sends at most one call,
which is the one it asks for, and its reply accounts for it. -/
theorem invoke_forwarded_once {W : World registryOps} {start : W.State} (agg : Aggregator)
    {K : List (Event W (metaService agg)) → W.State → Event W (metaService agg) → Prop}
    {es : List (Event W (metaService agg))} {σ : System W (metaService agg)}
    (h : Run start K es σ) (i : ℕ) :
    (∀ request p, σ.tasks i = some (request, p) → Once (Asks request) (trail forwarded i es)) ∧
    ∀ request reply σ', Step σ (.finish i request reply) σ' →
      Accounts (Asks request) reply (trail forwarded i es) := by
  have hfollows : ∀ request p, σ.tasks i = some (request, p) →
      Once (Asks request) (trail forwarded i es) ∧
      Obeys (forwarding (Asks request)) (Accounts (Asks request)) p (trail forwarded i es) := by
    intro request p hi
    refine run_follows (P := forwarded) (T := fun request p φ => Once (Asks request) φ ∧
      Obeys (forwarding (Asks request)) (Accounts (Asks request)) p φ) (G := fun _ _ => True)
      ?_ (fun _ _ _ _ _ _ _ => trivial) ?_ h hi
    · rintro request op next φ ans ⟨honce, hmay, hnext⟩ _
      exact ⟨once_after hmay honce ans, hnext ans⟩
    · exact fun request => ⟨⟨Nat.zero_le 1, by simp⟩, dispatch_obeys_once agg request⟩
  refine ⟨fun request p hi => (hfollows request p hi).1, fun request reply σ' hs => ?_⟩
  cases hs with
  | finish hi => exact (hfollows request _ hi).2

section Gate
open FaninMcp.PermissionLayer FaninMcp.SingleFlight

def answered (σ : MetaSystem gate) : Bool :=
  match σ.tasks 1 with
  | some (_, .done (.result _)) => true
  | _ => false

theorem answered_finishes {σ : MetaSystem gate} (h : answered σ = true) :
    ∃ request out σ', Step σ (.finish 1 request (.result out)) σ' := by
  rw [answered] at h
  split at h
  · rename_i request out hi
    exact ⟨request, out, _, Step.finish hi⟩
  · cases h

theorem answering_runs : ∃ es σ, Run (W := registryWorld) (V := metaService gate)
    (Shared.initial probeTools) (fun _ _ _ => true = true) es σ ∧ answered σ = true :=
  playAll_reaches responder (reading ++ goes 1 5) (by decide)

theorem invoke_forwarded_once_gate : ∃ (es : List (MetaEvent gate)) (σ : MetaSystem gate)
    (request : Request) (out : CallToolResult),
    Run (W := registryWorld) (V := metaService gate) (Shared.initial probeTools)
      (fun _ _ _ => True) (.finish 1 request (.result out)::es) σ ∧
        Accounts (Asks request) (.result out) (trail forwarded 1 es) := by
  obtain ⟨es, σ, hr, hdone⟩ := answering_runs
  obtain ⟨request, out, σ', hs⟩ := answered_finishes hdone
  exact ⟨es, σ', request, out, Run.step (run_weaken (fun _ _ _ _ => trivial) hr) trivial hs,
    (invoke_forwarded_once gate hr 1).2 request (.result out) σ' hs⟩

end Gate

end FaninMcp.InvokeForwarding
