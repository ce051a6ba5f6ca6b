import FaninMcp.ElicitationMediation
import FaninMcp.RegistryWalk

/-!
# Honest timeouts

Whatever a task waits for from an upstream it waits for under a timer of that
server. Once the timer has run out the task waits for nothing more, and answers
with the timeout of that server. So a timeout is reported only where its whole
time has passed with the attempt, the refetch or the call still open.
-/

set_option autoImplicit false

namespace FaninMcp.HonestTimeouts
open Foundation.RustText Foundation.JsonText Foundation.AsyncPrograms FaninMcp.ConfigModel
  FaninMcp.ErrorModel FaninMcp.NamespaceAcl FaninMcp.RegistryModel FaninMcp.RegistryWorld
  FaninMcp.RegistryProtocol FaninMcp.RegistryWalk FaninMcp.MetaTools FaninMcp.MetaAcl
  FaninMcp.SingleFlight FaninMcp.PermissionLayer FaninMcp.SessionWorld
  FaninMcp.ElicitationHonesty FaninMcp.ElicitationLifetime FaninMcp.ElicitationMediation

section Protocols

/-- The server whose timer a task is under, and the one whose timer it has just
seen run out. -/
structure Timing where
  timer : Option Text := none
  lapsed : Option Text := none

def starts : (op : Op) → Ans op → Option Text
  | .connectBegin server, _ => some server
  | .swapDirty entry, true => some entry.server
  | .release (.toolsRead entry), _ => some entry.server
  | _, _ => none

def ends : Op → Bool
  | .connectEnd _ | .listReply _ | .callReply _ | .abandon => true
  | _ => false

def upstream : Op → Option Text
  | .serve server => some server
  | .listRequest entry | .listReply entry | .callRequest entry _ _ | .callReply entry =>
    some entry.server
  | _ => none

def timingAfter (φ : Timing) (op : Op) (ans : Ans op) : Timing :=
  match starts op ans with
  | some server => ⟨some server, none⟩
  | none =>
    match op, ans with
    | .poll, true => ⟨φ.timer, φ.timer⟩
    | op, _ => if ends op then { φ with timer := none } else φ

/-- Nothing is waited for after a timer has run out, and no upstream without one. -/
def timing : Protocol registryOps where
  Phase := Timing
  idle := {}
  may φ op := (awaits op = true → φ.lapsed = none) ∧ ∀ server, upstream op = some server →
    φ.timer = some server
  after := timingAfter

def Blamed (e : ToolError) (φ : Timing) : Prop :=
  ∀ server tool, e = .upstreamTimeout server tool → φ.lapsed = some server

abbrev Punctual {α : Type} : Outcome α → Timing → Prop :=
  Comes (fun _ φ => φ.lapsed = none) Blamed

def InTime : ToolError → Prop
  | .upstreamTimeout _ _ => False
  | _ => True

end Protocols

section Programs
variable {config : TomlConfig} {active : ActiveNamespace} {server : Text} {φ : Timing}

theorem blamed_inTime {e : ToolError} (h : InTime e) : Blamed e φ := by
  rintro s t rfl
  exact h.elim

theorem blamed_timeout {tool : Option Text} (h : φ.lapsed = some server) :
    Blamed (.upstreamTimeout server tool) φ := by
  rintro s t ⟨⟩
  exact h

def Untimed (op : Op) : Prop :=
  awaits op = false ∧ upstream op = none ∧ ∀ φ ans, timingAfter φ op ans = φ

theorem untimed_resolution {op : Op} (h : isResolution op = true) : Untimed op := by
  cases op <;> first | exact ⟨rfl, rfl, fun _ _ => rfl⟩ | cases h

theorem untimed_may {op : Op} (h : Untimed op) :
    timing.may φ op ∧ ∀ ans, timing.after φ op ans = φ := by
  obtain ⟨hawaits, hupstream, hsame⟩ := h
  refine ⟨⟨fun hw => ?_, fun s hs => ?_⟩, hsame φ⟩
  · simp [hawaits] at hw
  · simp [hupstream] at hs

/-- A timer that is running when the task waits is the one that runs out. -/
def UnderTimer (server : Text) : Protocol registryOps :=
  { timing with may := fun φ op => timing.may φ op ∧ (awaits op = true → φ.timer = some server) }

theorem obeys_timed {α : Type} {future : RegistryProg α} {post : Option α → Timing → Prop}
    (hfuture : Obeys (UnderTimer server) (fun a => post (some a)) future φ)
    (hlapsed : ∀ ψ : Timing, ψ.lapsed = some server → post none ψ) :
    Obeys timing post (timed future) φ := by
  refine obeys_permit (P := UnderTimer server) (fun _ _ hmay => hmay.1)
    (obeys_interruptible_fired (fun ψ op hw hmay => ?_) (obeys_bind hfuture))
  obtain ⟨⟨hnone, _⟩, htimer⟩ := hmay
  refine ⟨⟨⟨fun _ => hnone hw, nofun⟩, fun _ => htimer hw⟩, fun fired => ?_⟩
  cases fired with
  | false => rfl
  | true => exact hlapsed _ (htimer hw)

theorem waits_may {op : Op} (h : upstream op = some server) :
    (UnderTimer server).may ⟨some server, none⟩ op :=
  ⟨⟨fun _ => rfl, fun _ hs => h.symm.trans hs⟩, fun _ => rfl⟩

theorem untimed_under {op : Op} (h : Untimed op) :
    (UnderTimer server).may ⟨some server, none⟩ op ∧
      ∀ ans, timingAfter ⟨some server, none⟩ op ans = ⟨some server, none⟩ :=
  ⟨⟨(untimed_may h).1, fun _ => rfl⟩, (untimed_may h).2⟩

theorem obeys_startService (serverConfig : ServerConfig) (env headers : TextMap Text) :
    Obeys (UnderTimer server) (Comes (fun _ ψ => ψ = ⟨some server, none⟩) fun e ψ =>
        ψ.lapsed = none ∧ InTime e)
      (startService server serverConfig env headers) ⟨some server, none⟩ := by
  refine startService_walk serverConfig env headers
    (fun _ hop => untimed_under (untimed_resolution (preparation_resolution hop)))
    (fun _ => ⟨rfl, trivial⟩) (untimed_under ⟨rfl, rfl, fun _ _ => rfl⟩)
    (fun _ _ _ => (untimed_under ⟨rfl, rfl, fun _ _ => rfl⟩).1) ⟨waits_may rfl, fun out => ?_⟩
  cases out with
  | error e => exact ⟨rfl, trivial⟩
  | ok entry => exact rfl

theorem obeys_connect (serverConfig : ServerConfig) (env headers : TextMap Text) :
    Obeys (UnderTimer server) Punctual (connect server serverConfig env headers)
      ⟨some server, none⟩ := by
  refine obeys_except (obeys_startService serverConfig env headers)
    (fun _ _ h => blamed_inTime h.2) ?_
  rintro ⟨entry, rfl⟩ _ rfl
  refine ⟨waits_may rfl, fun _ => ⟨waits_may rfl, fun reply => ?_⟩⟩
  cases reply with
  | error e => exact blamed_inTime trivial
  | ok tools => exact ⟨⟨⟨fun _ => rfl, nofun⟩, nofun⟩, fun _ => rfl⟩

theorem obeys_attempt (hφ : φ.lapsed = none) (serverConfig : ServerConfig)
    (env headers : TextMap Text) :
    Obeys timing Punctual (attempt server serverConfig env headers) φ := by
  rw [attempt_eq]
  refine ⟨⟨fun _ => hφ, nofun⟩, fun _ => obeys_bind (obeys_timed (obeys_mono (fun out ψ hψ => ?_)
    (obeys_connect serverConfig env headers)) (fun ψ hψ => ?_))⟩
  · refine ⟨⟨nofun, nofun⟩, fun _ => ?_⟩
    cases out <;> exact hψ
  · exact ⟨⟨nofun, nofun⟩, fun _ => blamed_timeout hψ⟩

theorem obeys_locked {lock : Lock} {op : Op} (hφ : φ.lapsed = none) (hop : Untimed op)
    (hrelease : Untimed (.release lock)) :
    Obeys timing (fun _ ψ => ψ = φ) (withLock lock (doing op)) φ := by
  obtain ⟨hmay, hsame⟩ := untimed_may (φ := φ) hop
  obtain ⟨hleave, hleft⟩ := untimed_may (φ := φ) hrelease
  refine ⟨⟨fun _ => hφ, nofun⟩, fun _ => ⟨hmay, fun ans => ?_⟩⟩
  change Obeys timing _ _ (timing.after φ op ans)
  rw [hsame]
  exact ⟨hleave, fun _ => hleft _⟩

theorem obeys_connectAbsent (hφ : φ.lapsed = none) :
    Obeys timing Punctual (connectAbsent config server) φ :=
  connectAbsent_walk (fun _ hop => untimed_may (untimed_resolution hop))
    (fun _ => blamed_inTime trivial) (fun _ => blamed_inTime trivial)
    (fun _ => blamed_inTime trivial)
    (fun serverConfig env headers _ => obeys_attempt hφ serverConfig env headers)
    fun _ _ hψ => obeys_mono (fun _ _ hsame => hsame ▸ hψ)
      (obeys_locked hψ ⟨rfl, rfl, fun _ _ => rfl⟩ ⟨rfl, rfl, fun _ _ => rfl⟩)

theorem obeys_lookup (hφ : φ.lapsed = none) :
    Obeys timing (Finds (fun _ ψ => ψ.lapsed = none) fun ψ => ψ.lapsed = none)
      (lookupEntry server) φ := by
  refine obeys_mono (fun found ψ hψ => ?_)
    (obeys_locked hφ ⟨rfl, rfl, fun _ _ => rfl⟩ ⟨rfl, rfl, fun _ _ => rfl⟩)
  rw [hψ]
  cases found <;> exact hφ

theorem obeys_getOrConnect (hφ : φ.lapsed = none) :
    Obeys timing Punctual (getOrConnect config server) φ := by
  refine getOrConnect_walk (obeys_lookup hφ) (fun ψ hψ => obeys_mono (fun _ _ hsame => hsame ▸ hψ)
    (obeys_locked hψ ⟨rfl, rfl, fun _ _ => rfl⟩ ⟨rfl, rfl, fun _ _ => rfl⟩)) fun guard ψ hψ => ?_
  rw [withLock_eq]
  refine ⟨⟨fun _ => hψ, nofun⟩, fun _ => obeys_bind (obeys_mono (fun out χ hχ => ?_)
    (connectGuarded_walk (obeys_lookup hψ) fun _ h => obeys_connectAbsent h))⟩
  exact ⟨⟨nofun, nofun⟩, fun _ => hχ⟩

theorem mapServiceError_inTime (e : ServiceError) (server tool : Text) :
    InTime (mapServiceError e server tool) := by
  cases e <;> trivial

theorem obeys_exchange {α : Type} {entry : Entry} {request reply : Op}
    (hrequest : upstream request = some entry.server ∧
      ∀ ans, timingAfter ⟨some entry.server, none⟩ request ans = ⟨some entry.server, none⟩)
    (hreply : upstream reply = some entry.server ∧
      ∀ ans, timingAfter ⟨some entry.server, none⟩ reply ans = ⟨none, none⟩)
    {f : Ans reply → α} :
    Obeys (UnderTimer entry.server) (fun _ ψ => ψ = ⟨none, none⟩)
      (.act (S := registryOps) request fun _ => .act reply fun ans => .done (f ans))
      ⟨some entry.server, none⟩ := by
  refine ⟨waits_may hrequest.1, fun ans => ?_⟩
  change Obeys (UnderTimer entry.server) _ _ (timingAfter ⟨some entry.server, none⟩ request ans)
  rw [hrequest.2]
  exact ⟨waits_may hreply.1, fun ans => hreply.2 ans⟩

theorem obeys_ensureFresh (entry : EntryOf server) (hφ : φ.lapsed = none) :
    Obeys timing Punctual (ensureFresh entry.1 server) φ := by
  obtain ⟨entry, rfl⟩ := entry
  refine ⟨⟨nofun, nofun⟩, fun dirty => ?_⟩
  cases dirty with
  | false => exact hφ
  | true =>
    refine ⟨⟨nofun, nofun⟩, fun was => ?_⟩
    cases was with
    | false => exact hφ
    | true =>
      refine obeys_bind (p := timed (fetchTools entry)) (@obeys_timed entry.server _ _ _ _
        (obeys_mono (fun out ψ hψ => ?_)
          (obeys_exchange ⟨rfl, fun _ => rfl⟩ ⟨rfl, fun _ => rfl⟩)) (fun ψ hψ => ?_))
      · rw [hψ]
        rcases out with e | fresh
        · exact ⟨⟨nofun, nofun⟩, fun _ => blamed_inTime (mapServiceError_inTime e _ _)⟩
        · refine obeys_bind (obeys_mono (fun _ χ hχ => ?_) (obeys_locked rfl
            ⟨rfl, rfl, fun _ _ => rfl⟩ ⟨rfl, rfl, fun _ _ => rfl⟩))
          rw [hχ]
          exact (rfl : Timing.lapsed ⟨none, none⟩ = none)
      · exact ⟨⟨nofun, nofun⟩, fun _ => blamed_timeout hψ⟩

theorem obeys_readInventory (entry : EntryOf server) (hφ : φ.lapsed = none) :
    Obeys timing (fun _ ψ => ψ = ⟨some server, none⟩) (readInventory entry.1) φ := by
  obtain ⟨entry, rfl⟩ := entry
  exact ⟨⟨fun _ => hφ, nofun⟩, fun _ => ⟨⟨nofun, nofun⟩, fun _ => ⟨⟨nofun, nofun⟩, fun _ => rfl⟩⟩⟩

theorem obeys_inventory (hφ : φ.lapsed = none) :
    Obeys timing Punctual (inventory config server) φ := by
  refine inventory_walk (obeys_getOrConnect hφ) (fun entry _ => obeys_ensureFresh entry)
    (fun entry _ => obeys_readInventory entry) ?_
  rintro _ _ _ rfl
  rfl

theorem obeys_forwardCall (entry : EntryOf server) (tool : Text)
    (arguments : Option JsonObject) :
    Obeys timing (Called server tool (fun _ ψ => ψ.lapsed = none) Blamed)
      (timed (forwardCall entry.1 tool arguments)) ⟨some server, none⟩ := by
  obtain ⟨entry, rfl⟩ := entry
  refine @obeys_timed entry.server _ _ _ _ (obeys_mono (fun out ψ hψ => ?_)
    (obeys_exchange ⟨rfl, fun _ => rfl⟩ ⟨rfl, fun _ => rfl⟩)) fun ψ hψ => blamed_timeout hψ
  rcases out with e | result
  · exact blamed_inTime (mapServiceError_inTime e _ _)
  · rw [hψ]
    exact (rfl : Timing.lapsed ⟨none, none⟩ = none)

theorem obeys_callTool (tool : Text) (arguments : Option JsonObject) (hφ : φ.lapsed = none) :
    Obeys timing Punctual (callTool config server tool arguments) φ := by
  refine callTool_walk (obeys_getOrConnect hφ) (fun entry _ => obeys_ensureFresh entry)
    (fun entry _ => obeys_readInventory entry) (fun _ _ _ _ => blamed_inTime trivial) ?_
  rintro entry listing _ rfl _
  exact obeys_forwardCall entry tool arguments

/-- A reply that reports a timeout comes from the timer of that server. -/
def Reported (reply : Reply) (φ : Timing) : Prop :=
  ∀ server tool, reply = .failed (.upstreamTimeout server tool) → φ.lapsed = some server

theorem reported_error {e : ToolError} (h : Blamed e φ) : Reported (.failed e) φ := by
  rintro s t ⟨rfl⟩
  exact h s t rfl

theorem obeys_listRows (servers : List Text) (hφ : φ.lapsed = none) :
    Obeys timing Reported (listRows config active servers []) φ :=
  listRows_walk servers (fun _ _ _ => obeys_inventory) (fun _ _ _ => nofun)
    (fun _ _ _ => nofun) (fun _ _ => reported_error) [] hφ

theorem obeys_invokeRaced (tool : Text) (arguments : JsonObject) (hφ : φ.lapsed = none) :
    Obeys timing Reported (invokeRaced config server tool arguments) φ := by
  refine obeys_interruptible_fired (fun ψ op hw hmay => ?_)
    (obeys_except (obeys_callTool tool (some arguments) hφ) (fun _ _ => reported_error)
      fun _ _ _ => nofun)
  refine ⟨⟨fun _ => hmay.1 hw, nofun⟩, fun fired => ?_⟩
  cases fired with
  | false => rfl
  | true => exact ⟨⟨nofun, nofun⟩, fun _ => nofun⟩

theorem obeys_dispatch (request : Request) :
    Obeys timing Reported (dispatchTool (.withRegistry config active) request) {} := by
  have hhandled := @dispatch_handled config active request
  generalize dispatchTool _ request = p at hhandled ⊢
  cases hhandled with
  | refused e hrefused =>
    rintro s t ⟨rfl⟩
    exact hrefused.elim
  | listing servers _ => exact obeys_listRows servers rfl
  | schema name server tool _ _ _ =>
    refine obeys_except (obeys_inventory rfl) (fun _ _ => reported_error) fun tools ψ _ => ?_
    rw [schemaIn]
    cases tools.find? _ <;> exact nofun
  | call server tool raw _ _ => exact obeys_invokeRaced tool raw rfl

end Programs

section Histories
variable {S : Setting} {agg : Aggregator}

def stops (i : ℕ) : SessionEvent S agg → Bool
  | .act j op ans => j = i && (ends op || (starts op ans).isSome)
  | .spawn j _ | .finish j _ _ | .drop j => j = i
  | .outside _ => false

/-- The task has come under the timer of the server, and `between` is what has
happened since. -/
def Ticking (i : ℕ) (server : Text) (between es : List (SessionEvent S agg)) : Prop :=
  ∃ op ans before, es = between ++ .act i op ans::before ∧ starts op ans = some server ∧
    ∀ e ∈ between, stops i e = false

/-- The timer of the server has run out on the task, and the task has waited for
nothing since. -/
def Lapsed (S : Setting) (i : ℕ) (server : Text) (es : List (SessionEvent S agg)) : Prop :=
  ∃ after between earlier, es = after ++ .act i .poll true::earlier ∧
    (∀ op ans, .act i op ans ∈ after → awaits op = false) ∧ Ticking i server between earlier ∧
    S.effectiveTimeout server ≤ ticks between

/-- The timer in the session is the one the history speaks of. -/
inductive Clock (S : Setting) (i : ℕ) (es : List (SessionEvent S agg)) :
    Option Text → Option ℕ → Prop
  | off (deadline : Option ℕ) : Clock S i es none deadline
  | on (server : Text) (between : List (SessionEvent S agg)) (deadline : ℕ) :
      Ticking i server between es →
      deadline + ticks between = ticks es + S.effectiveTimeout server →
      Clock S i es (some server) (some deadline)

variable {es : List (SessionEvent S agg)} {e : SessionEvent S agg} {i : ℕ}

theorem ticking_cons {server : Text} {between : List (SessionEvent S agg)}
    (h : Ticking i server between es) (he : stops i e = false) :
    Ticking i server (e::between) (e::es) := by
  obtain ⟨op, ans, before, rfl, hstarts, hgoes⟩ := h
  exact ⟨op, ans, before, rfl, hstarts, List.forall_mem_cons.mpr ⟨he, hgoes⟩⟩

theorem ticking_start {server : Text} {op : Op} {ans : Ans op} (h : starts op ans = some server) :
    Ticking i server [] (.act i op ans::es) :=
  ⟨op, ans, es, rfl, h, nofun⟩

theorem clock_cons {timer : Option Text} {deadline : Option ℕ} (h : Clock S i es timer deadline)
    (he : stops i e = false) : Clock S i (e::es) timer deadline := by
  cases h with
  | off _ => exact .off _
  | on server between deadline hticking hdeadline =>
    refine .on server (e::between) deadline (ticking_cons hticking he) ?_
    rw [ticks_cons, ticks_cons]
    omega

theorem timerAfter_eq (now : ℕ) (timer : Option ℕ) (op : Op) (ans : Ans op) :
    timerAfter S now timer op ans = match starts op ans with
      | some server => some (now + S.effectiveTimeout server)
      | none => if ends op then none else timer := by
  cases op <;> first | rfl | skip
  case release lock => cases lock <;> rfl
  case swapDirty entry => cases ans <;> rfl

theorem timingAfter_timer (φ : Timing) (op : Op) (ans : Ans op) :
    (timingAfter φ op ans).timer = match starts op ans with
      | some server => some server
      | none => if ends op then none else φ.timer := by
  cases op <;> first | rfl | skip
  case release lock => cases lock <;> rfl
  case swapDirty entry => cases ans <;> rfl
  case poll => cases ans <;> rfl

theorem clock_act {timer : Option ℕ} {φ : Timing} {op : Op} {ans : Ans op}
    (h : Clock S i es φ.timer timer) : Clock S i (.act i op ans::es) (timingAfter φ op ans).timer
      (timerAfter S (ticks es) timer op ans) := by
  rw [timerAfter_eq, timingAfter_timer]
  cases hstarts : starts op ans with
  | some server =>
    refine .on server [] _ (ticking_start hstarts) ?_
    rw [ticks_cons]
    rfl
  | none =>
    dsimp only
    split_ifs with hends
    · exact .off none
    · exact clock_cons h (by simp [stops, hstarts, hends])

theorem lapsed_act {φ : Timing} {op : Op} {ans : Ans op} {server : Text}
    (h : (timingAfter φ op ans).lapsed = some server) :
    φ.lapsed = some server ∨ φ.timer = some server ∧
      (.act i op ans : SessionEvent S agg) = .act i .poll true := by
  cases op <;> first | exact Or.inl h | cases h | skip
  case release lock => cases lock <;> first | exact Or.inl h | cases h
  case swapDirty entry =>
    cases ans with
    | false => exact Or.inl h
    | true => cases h
  case poll =>
    cases ans with
    | false => exact Or.inl h
    | true => exact Or.inr ⟨h, rfl⟩

theorem lapsed_cons {server : Text} (h : Lapsed S i server es)
    (he : ∀ op ans, e = .act i op ans → awaits op = false) : Lapsed S i server (e::es) := by
  obtain ⟨after, between, earlier, rfl, hafter, hticking, htime⟩ := h
  refine ⟨e::after, between, earlier, rfl, fun op ans hin => ?_, hticking, htime⟩
  rcases List.mem_cons.mp hin with heq | hin
  · exact he op ans heq.symm
  · exact hafter op ans hin

end Histories

section Runs
variable {S : Setting} {config : TomlConfig} {active : ActiveNamespace} {tools : Entry → List Tool}

theorem run_clock {agg : Aggregator}
    {K : List (SessionEvent S agg) → Session → SessionEvent S agg → Prop}
    {es : List (SessionEvent S agg)} {σ : SessionSystem S agg}
    (h : Run (Session.initial tools) K es σ) (i : ℕ) :
    Clock S i es (trail timing i es).timer (σ.shared.timers i) := by
  induction h with
  | start => exact .off none
  | @step es σ σ' e hr _ hs ih =>
    cases hs with
    | @act j _ op _ ans _ _ hp =>
      obtain ⟨_, _, rfl⟩ := hp
      by_cases hj : j = i
      · subst hj
        have hclock := @clock_act S agg es j _ _ op ans ih
        rw [← run_ticks hr] at hclock
        simpa [trail, timing, Session.after] using hclock
      · have hclock := clock_cons ih (e := .act j op ans) (by simp [stops, hj])
        simpa [trail, hj, Session.after, Ne.symm hj] using hclock
    | @spawn j _ _ | @finish j _ _ _ =>
      by_cases hj : j = i
      · subst hj
        simp only [trail, if_pos]
        exact .off _
      · simpa [trail, hj] using clock_cons ih (by simp [stops, hj])
    | @drop j _ _ _ _ _ =>
      by_cases hj : j = i
      · subst hj
        simp only [trail, if_pos]
        exact .off _
      · simpa [trail, hj, Ne.symm hj] using clock_cons ih (by simp [stops, hj])
    | @outside happening _ ho =>
      have hclock := clock_cons ih (e := .outside happening) rfl
      cases outside_happens ho <;> exact hclock

variable {K : List (SessionEvent S (.withRegistry config active)) → Session →
    SessionEvent S (.withRegistry config active) → Prop}
  {es : List (SessionEvent S (.withRegistry config active))}
  {σ : SessionSystem S (.withRegistry config active)} {i : ℕ} {server : Text}

theorem lapsed_poll {σ' : SessionSystem S (.withRegistry config active)}
    (h : Run (Session.initial tools) K es σ)
    (htimer : (trail timing i es).timer = some server) (hs : Step σ (.act i .poll true) σ') :
    Lapsed S i server (.act i .poll true::es) := by
  have hclock := run_clock h i
  rw [htimer] at hclock
  generalize hset : σ.shared.timers i = timer at hclock
  cases hclock with
  | on _ between deadline hticking hdeadline =>
    refine ⟨[], between, es, rfl, nofun, hticking, ?_⟩
    cases hs with
    | act _ hp =>
      obtain ⟨_, hadmits, _⟩ := hp
      simp only [Session.admits, Session.due, hset, Bool.not_true, Bool.false_or, Option.any_some,
        decide_eq_true_eq] at hadmits
      rw [run_ticks h] at hadmits
      omega

theorem run_lapsed (h : Run (Session.initial tools) K es σ)
    (hi : (trail timing i es).lapsed = some server) : Lapsed S i server es := by
  induction h with
  | start => cases hi
  | @step es σ σ' e hr _ hs ih =>
    by_cases he : e.task = some i
    · cases e with
      | act j op ans =>
        obtain rfl : j = i := Option.some.inj he
        have hmay := may_of_step obeys_dispatch hr hs
        rw [trail, if_pos rfl] at hi
        rcases @lapsed_act S (.withRegistry config active) j _ op ans server hi with
          hold | ⟨htimer, hpoll⟩
        · refine lapsed_cons (ih hold) fun op' ans' heq => ?_
          cases heq
          cases hwaits : awaits op with
          | false => rfl
          | true => cases (hmay.1 hwaits).symm.trans hold
        · rw [hpoll] at hs ⊢
          exact lapsed_poll hr htimer hs
      | spawn j _ | finish j _ _ | drop j =>
        obtain rfl : j = i := Option.some.inj he
        simp [trail, timing] at hi
      | outside _ => cases he
    · rw [trail_other timing es he] at hi
      exact lapsed_cons (ih hi) fun op ans heq => absurd (heq ▸ rfl) he

/-- In every session, whatever upstreams and clients do and whoever is cancelled:
a request is answered with the timeout of a server only after a timer of that
server has run out on it, with the attempt, the refetch or the call it was set
for still open and the whole configured time passed since, and it has waited for
nothing in between. And wherever a request waits for an upstream, it is under that
server's timer. -/
theorem timeouts_honest (S : Setting) (config : TomlConfig) (active : ActiveNamespace)
    (tools : Entry → List Tool)
    {K : List (SessionEvent S (.withRegistry config active)) → Session →
      SessionEvent S (.withRegistry config active) → Prop}
    {es : List (SessionEvent S (.withRegistry config active))}
    {σ : SessionSystem S (.withRegistry config active)}
    (h : Run (Session.initial tools) K es σ) :
    (∀ later earlier i request server tool,
      es = later ++ .finish i request (.failed (.upstreamTimeout server tool))::earlier →
        Lapsed S i server earlier) ∧
    ∀ later earlier i op ans server, es = later ++ .act i op ans::earlier →
      upstream op = some server → ∃ between, Ticking i server between earlier := by
  constructor
  · intro later earlier i request server tool hes
    obtain ⟨τ, τ', hτ, _, hs⟩ := run_event h hes
    exact run_lapsed hτ (post_of_step obeys_dispatch hτ hs server tool rfl)
  · intro later earlier i op ans server hes hop
    obtain ⟨τ, τ', hτ, _, hs⟩ := run_event h hes
    have hmay := may_of_step obeys_dispatch hτ hs
    have htimer := hmay.2 server hop
    have hclock := run_clock hτ i
    rw [htimer] at hclock
    generalize τ.shared.timers i = timer at hclock
    cases hclock with
    | on _ between _ hticking _ => exact ⟨between, hticking⟩

/-- The last thing that happened is that the probe's call was answered with a timeout. -/
def timedOut : List (SessionEvent askable gate) → Bool
  | .finish i _ (.failed (.upstreamTimeout server _))::_ => i = 1 && server == "s".toList
  | _ => false

theorem timedOut_elapsing : ∃ es σ, Run (W := sessionWorld askable) (V := metaService gate)
    (Session.initial probeTools) (fun es σ e => dispatched es σ e = true) es σ ∧
      timedOut es = true :=
  playAll_reaches (sessionResponder askable) (asking ++ elapsing) (by decide)

theorem timeouts_honest_elapsing : ∃ (es : List (SessionEvent askable gate)) (request : Request)
    (tool : Option Text) (earlier : List (SessionEvent askable gate))
    (σ : SessionSystem askable gate), Run (Session.initial probeTools) Dispatched es σ ∧
    es = .finish 1 request (.failed (.upstreamTimeout "s".toList tool))::earlier ∧
      Lapsed askable 1 "s".toList earlier := by
  obtain ⟨es, σ, hr, hgoal⟩ := timedOut_elapsing
  obtain ⟨i, request, server, tool, earlier, rfl⟩ : ∃ i request server tool earlier,
      es = .finish i request (.failed (.upstreamTimeout server tool))::earlier := by
    unfold timedOut at hgoal
    split at hgoal
    · exact ⟨_, _, _, _, _, rfl⟩
    · cases hgoal
  simp only [timedOut, Bool.and_eq_true, decide_eq_true_eq, beq_iff_eq] at hgoal
  obtain ⟨rfl, rfl⟩ := hgoal
  exact ⟨_, request, tool, earlier, σ, run_weaken dispatched_sound hr, rfl,
    (timeouts_honest askable gateConfig gateActive probeTools hr).1 [] earlier 1 request _ tool rfl⟩

end Runs

end FaninMcp.HonestTimeouts
