import FaninMcp.ElicitationLifetime

/-!
# How an upstream's question is treated

A question is asked once, by an upstream that is connected, and it is settled at
most once. It goes to the client only if the client has declared that it can be
asked and its peer was there in time. What the upstream is told then is what the
client has answered to this very question, or a refusal that comes after the
question's own time is over.
-/

set_option autoImplicit false

namespace FaninMcp.ElicitationMediation
open Foundation.RustText Foundation.JsonText Foundation.AsyncPrograms FaninMcp.ConfigModel
  FaninMcp.RegistryModel FaninMcp.RegistryWorld FaninMcp.ElicitationModel FaninMcp.MetaTools
  FaninMcp.SingleFlight FaninMcp.PermissionLayer FaninMcp.SessionWorld
  FaninMcp.ElicitationHonesty FaninMcp.ElicitationLifetime

section Histories
variable {S : Setting} {agg : Aggregator}

def asks (k : ℕ) : SessionEvent S agg → Bool
  | .outside (.elicit j _ _) => j = k
  | _ => false

/-- The client or the question's own timer has the last word on it. -/
def closes (k : ℕ) : SessionEvent S agg → Bool
  | .outside (.answered j _) | .outside (.expired j) => j = k
  | _ => false

def isTick : SessionEvent S agg → Bool
  | .outside .tick => true
  | _ => false

def ticks (es : List (SessionEvent S agg)) : ℕ := es.countP isTick

def Available (S : Setting) (es : List (SessionEvent S agg)) : Prop :=
  Declares S.client ∧ es.any fillsCell = true

inductive Served (es : List (SessionEvent S agg)) (entry : Entry) : Prop
  | arrived (i : ℕ) : .act i (.serve entry.server) (.ok ⟨entry, rfl⟩) ∈ es → Served es entry

/-- What has become of a question between `earlier`, when it was asked, and now. -/
inductive Treated (S : Setting) (k : ℕ) (handler : UpstreamClientHandler)
    (later earlier : List (SessionEvent S agg)) (elicitation : Elicitation) : Prop
  | declined : ¬ Available S earlier → (∀ e ∈ later, closes k e = false) →
      elicitation.reply = some (.error handler.rejection) →
      Treated S k handler later earlier elicitation
  | waiting : Available S earlier → (∀ e ∈ later, closes k e = false) →
      elicitation.reply = none → elicitation.expires = ticks earlier + handler.effectiveTimeout →
      Treated S k handler later earlier elicitation
  | answered (after between : List (SessionEvent S agg))
      (outcome : Except ServiceError CreateElicitationResult) : Available S earlier →
      later = after ++ .outside (.answered k outcome)::between →
      (∀ e ∈ after ++ between, closes k e = false) →
      elicitation.reply = some (handler.relay outcome) →
      Treated S k handler later earlier elicitation
  | expired (after between : List (SessionEvent S agg)) : Available S earlier →
      later = after ++ .outside (.expired k)::between →
      (∀ e ∈ after ++ between, closes k e = false) →
      handler.effectiveTimeout ≤ ticks between →
      elicitation.reply = some (.error handler.nonAccept) →
      Treated S k handler later earlier elicitation

/-- A question was asked once, by an upstream that was connected, and treated
since then. -/
inductive Course (S : Setting) (k : ℕ) :
    List (SessionEvent S agg) → Option Elicitation → Prop
  | unasked {es : List (SessionEvent S agg)} :
      (∀ e ∈ es, asks k e = false ∧ closes k e = false) → Course S k es none
  | asked {later earlier : List (SessionEvent S agg)} {elicitation : Elicitation} (entry : Entry)
      (request : CreateElicitationRequest) :
      (∀ e ∈ later, asks k e = false) →
      (∀ e ∈ earlier, asks k e = false ∧ closes k e = false) →
      Served earlier entry → elicitation.handler = S.handler entry.server →
      Treated S k (S.handler entry.server) later earlier elicitation →
      Course S k (later ++ .outside (.elicit k entry request)::earlier) (some elicitation)

end Histories

section Steps
variable {S : Setting} {agg : Aggregator} {k : ℕ} {e : SessionEvent S agg}
  {es later earlier : List (SessionEvent S agg)} {handler : UpstreamClientHandler}
  {elicitation : Elicitation} {current : Option Elicitation}

theorem treated_cons (he : closes k e = false)
    (h : Treated S k handler later earlier elicitation) :
    Treated S k handler (e::later) earlier elicitation := by
  cases h with
  | declined hno hopen hreply => exact .declined hno (List.forall_mem_cons.mpr ⟨he, hopen⟩) hreply
  | waiting hyes hopen hreply htime =>
    exact .waiting hyes (List.forall_mem_cons.mpr ⟨he, hopen⟩) hreply htime
  | answered after between outcome hyes heq hrest hreply =>
    exact .answered (e::after) between outcome hyes (congrArg (e::·) heq)
      (List.forall_mem_cons.mpr ⟨he, hrest⟩) hreply
  | expired after between hyes heq hrest htime hreply =>
    exact .expired (e::after) between hyes (congrArg (e::·) heq)
      (List.forall_mem_cons.mpr ⟨he, hrest⟩) htime hreply

theorem course_cons (hask : asks k e = false) (hclose : closes k e = false)
    (h : Course S k es current) : Course S k (e::es) current := by
  cases h with
  | unasked hnone => exact .unasked (List.forall_mem_cons.mpr ⟨⟨hask, hclose⟩, hnone⟩)
  | @asked later earlier elicitation entry request hlater hearlier hserved hhandler htreated =>
    exact @Course.asked agg S k (e::later) earlier elicitation entry request
      (List.forall_mem_cons.mpr ⟨hask, hlater⟩) hearlier hserved hhandler
      (treated_cons hclose htreated)

theorem treated_waiting (h : Treated S k handler later earlier elicitation)
    (hopen : elicitation.reply = none) :
    Available S earlier ∧ (∀ e ∈ later, closes k e = false) ∧
      elicitation.expires = ticks earlier + handler.effectiveTimeout := by
  cases h with
  | waiting hyes hlater _ htime => exact ⟨hyes, hlater, htime⟩
  | declined _ _ hreply => simp [hopen] at hreply
  | answered _ _ _ _ _ _ hreply => simp [hopen] at hreply
  | expired _ _ _ _ _ _ hreply => simp [hopen] at hreply

theorem ticks_cons (e : SessionEvent S agg) (es : List (SessionEvent S agg)) :
    ticks (e::es) = ticks es + if isTick e then 1 else 0 :=
  List.countP_cons

theorem ticks_asked (entry : Entry) (request : CreateElicitationRequest) :
    ticks (later ++ .outside (.elicit k entry request)::earlier : List (SessionEvent S agg)) =
      ticks later + ticks earlier := by
  rw [ticks, List.countP_append, ← ticks, ← ticks, ticks_cons]
  simp [isTick]

theorem course_answered (outcome : Except ServiceError CreateElicitationResult)
    (h : Course S k es (some elicitation)) (hopen : elicitation.reply = none) :
    Course S k (.outside (.answered k outcome)::es) (some (elicitation.settle outcome)) := by
  cases h with
  | @asked later earlier _ entry request hlater hearlier hserved hhandler htreated =>
    obtain ⟨hyes, hbetween, -⟩ := treated_waiting htreated hopen
    refine @Course.asked agg S k (.outside (.answered k outcome)::later) earlier _ entry request
      (List.forall_mem_cons.mpr ⟨rfl, hlater⟩) hearlier hserved hhandler ?_
    exact .answered [] later outcome hyes rfl hbetween (by rw [Elicitation.settle, hhandler])

theorem course_expired (h : Course S k es (some elicitation)) (hopen : elicitation.reply = none)
    (hdue : elicitation.expires ≤ ticks es) :
    Course S k (.outside (.expired k)::es)
      (some (elicitation.settle (.error "timeout".toList))) := by
  cases h with
  | @asked later earlier _ entry request hlater hearlier hserved hhandler htreated =>
    obtain ⟨hyes, hbetween, htime⟩ := treated_waiting htreated hopen
    refine @Course.asked agg S k (.outside (.expired k)::later) earlier _ entry request
      (List.forall_mem_cons.mpr ⟨rfl, hlater⟩) hearlier hserved hhandler ?_
    have hpassed : (S.handler entry.server).effectiveTimeout ≤ ticks later := by
      rw [ticks_asked, htime] at hdue
      omega
    exact .expired [] later hyes rfl hbetween hpassed
      (by rw [Elicitation.settle, hhandler]; rfl)

theorem treated_start {cell : DownstreamPeerCell} {now : ℕ} {request : CreateElicitationRequest}
    (hcell : (downstreamElicitationAvailable cell).isSome = true ↔ Available S earlier)
    (hnow : now = ticks earlier) :
    Treated S k handler [] earlier (startElicitation handler cell now request) := by
  have hnothing : ∀ e ∈ ([] : List (SessionEvent S agg)), closes k e = false := by simp
  rw [startElicitation, UpstreamClientHandler.createElicitation]
  cases hpeer : downstreamElicitationAvailable cell with
  | none => exact .declined (fun hyes => by simp [hpeer] at hcell; exact hcell hyes) hnothing rfl
  | some peer =>
    exact .waiting (hcell.mp (by rw [hpeer]; rfl)) hnothing rfl (by rw [hnow])

end Steps

section Runs
variable {S : Setting} {agg : Aggregator} {tools : Entry → List Tool}
  {K : List (SessionEvent S agg) → Session → SessionEvent S agg → Prop}
  {es : List (SessionEvent S agg)} {σ σ' : SessionSystem S agg} {e : SessionEvent S agg} {k : ℕ}

theorem run_ticks (h : Run (Session.initial tools) K es σ) : σ.shared.now = ticks es := by
  induction h with
  | start => rfl
  | @step es σ σ' e _ _ hs ih =>
    rw [ticks_cons, ← ih]
    cases hs with
    | act _ hp =>
      obtain ⟨_, _, rfl⟩ := hp
      rfl
    | spawn _ _ | finish _ | drop _ _ => rfl
    | outside ho => cases outside_happens ho <;> rfl

theorem run_available (h : Run (Session.initial tools) K es σ) :
    (downstreamElicitationAvailable σ.shared.cell).isSome = true ↔ Available S es := by
  rw [← advertises_iff, advertises_told (run_peered h) (Or.inr rfl), run_filled h, and_comm]
  rfl

theorem run_served (h : Run (Session.initial tools) K es σ) :
    ∀ connection ∈ σ.shared.connections, Served es connection.entry := by
  induction h with
  | start =>
    intro connection hin
    cases hin
  | @step es σ σ' e _ _ hs ih =>
    have hkeep : ∀ connection ∈ σ.shared.connections, Served (e::es) connection.entry :=
      fun connection hin => by
        obtain ⟨i, hi⟩ := ih connection hin
        exact ⟨i, List.mem_cons_of_mem _ hi⟩
    cases hs with
    | act _ hp =>
      obtain ⟨_, _, rfl⟩ := hp
      intro connection hin
      rcases connectionsAfter_cases hin with hold | ⟨_, hserved⟩
      · exact hkeep connection hold
      · cases hserved
        exact ⟨_, List.mem_cons_self⟩
    | spawn _ _ | finish _ | drop _ _ => exact hkeep
    | outside ho => cases outside_happens ho <;> exact hkeep

theorem pending_open {σ : Session} {elicitation : Elicitation}
    (h : σ.pending k = some elicitation) :
    σ.elicitations k = some elicitation ∧ elicitation.reply = none := by
  obtain ⟨hk, hopen⟩ := Option.filter_eq_some_iff.mp h
  exact ⟨hk, Option.isNone_iff_eq_none.mp hopen⟩

theorem setElicitation_self (σ : Session) (k : ℕ) (elicitation : Elicitation) :
    (σ.setElicitation k elicitation).elicitations k = some elicitation :=
  Function.update_self ..

theorem start_handler {handler : UpstreamClientHandler} {cell : DownstreamPeerCell} {now : ℕ}
    {request : CreateElicitationRequest} :
    (startElicitation handler cell now request).handler = handler := by
  rw [startElicitation]
  split <;> rfl

theorem served_of_connected (h : Run (Session.initial tools) K es σ) {entry : Entry}
    (hconnected : σ.shared.connected entry = true) : Served es entry := by
  obtain ⟨connection, hin, hentry⟩ := List.any_eq_true.mp hconnected
  obtain rfl := of_decide_eq_true hentry
  exact run_served h connection hin

theorem course_step (h : Run (Session.initial tools) K es σ) (hs : Step σ e σ')
    (hk : Course S k es (σ.shared.elicitations k)) :
    Course S k (e::es) (σ'.shared.elicitations k) := by
  cases hs with
  | act _ hp =>
    obtain ⟨_, _, rfl⟩ := hp
    exact course_cons rfl rfl hk
  | spawn _ _ | finish _ | drop _ _ => exact course_cons rfl rfl hk
  | outside ho =>
    cases outside_happens ho with
    | registry _ | initialized _ | setDownstreamPeer _ | getInfo _ | tick | cancel =>
      exact course_cons rfl rfl hk
    | @elicit j entry request hconnected hnone =>
      by_cases hj : j = k
      · subst hj
        rw [hnone] at hk
        cases hk with
        | unasked hnever =>
          dsimp only
          rw [setElicitation_self]
          exact @Course.asked agg S j [] es _ entry request nofun hnever
            (served_of_connected h hconnected) start_handler
            (treated_start (run_available h) (run_ticks h))
      · rw [(pending_elsewhere (Ne.symm hj)).1]
        exact course_cons (by simp [asks, hj]) rfl hk
    | @answered j outcome elicitation hpending =>
      by_cases hj : j = k
      · subst hj
        obtain ⟨helicitation, hopen⟩ := pending_open hpending
        dsimp only
        rw [setElicitation_self]
        exact course_answered outcome (helicitation ▸ hk) hopen
      · rw [(pending_elsewhere (Ne.symm hj)).1]
        exact course_cons rfl (by simp [closes, hj]) hk
    | @expired j elicitation hpending hdue =>
      by_cases hj : j = k
      · subst hj
        obtain ⟨helicitation, hopen⟩ := pending_open hpending
        dsimp only
        rw [setElicitation_self]
        exact course_expired (helicitation ▸ hk) hopen (run_ticks h ▸ hdue)
      · rw [(pending_elsewhere (Ne.symm hj)).1]
        exact course_cons rfl (by simp [closes, hj]) hk

theorem run_course (h : Run (Session.initial tools) K es σ) (k : ℕ) :
    Course S k es (σ.shared.elicitations k) := by
  induction h with
  | start => exact .unasked nofun
  | step hr _ hs ih => exact course_step hr hs ih

/-- In every session, whoever asks and answers in whatever order: a question was
asked once, by an upstream that was connected. If the client had not declared
that it can be asked, or its peer was not there yet, it was declined at once,
and nothing else ever happens to it. Otherwise it waits, or it was closed once:
by the client, whose answer to this question is passed on as it is and whose
failure is a refusal, or by a refusal after the server's whole timeout. So what
an upstream takes for an acceptance is the client's answer to its own question. -/
theorem questions_mediated (S : Setting) (agg : Aggregator) (tools : Entry → List Tool)
    {K : List (SessionEvent S agg) → Session → SessionEvent S agg → Prop}
    {es : List (SessionEvent S agg)} {σ : SessionSystem S agg}
    (h : Run (Session.initial tools) K es σ) (k : ℕ) :
    Course S k es (σ.shared.elicitations k) ∧
      ∀ elicitation result, σ.shared.elicitations k = some elicitation →
        elicitation.reply = some (.ok result) →
        Declares S.client ∧ .outside (.answered k (.ok result)) ∈ es := by
  have hcourse := run_course h k
  refine ⟨hcourse, fun elicitation result hasked hreply => ?_⟩
  rw [hasked] at hcourse
  cases hcourse with
  | asked entry request _ _ _ _ htreated =>
    cases htreated with
    | declined _ _ hno => simp [hreply] at hno
    | waiting _ _ hno _ => simp [hreply] at hno
    | expired _ _ _ _ _ _ hno => simp [hreply] at hno
    | answered after between outcome hyes heq _ hrelayed =>
      obtain rfl := relay_ok (Option.some.inj (hrelayed.symm.trans hreply))
      exact ⟨hyes.1, by simp [heq]⟩

end Runs

section Consent

def consenting : List (Choice (metaService gate) Hint Happening) :=
  raced ++ [.outside (.answered 0 (.ok ⟨.accept, none⟩))]

def accepted (σ : Session) : Bool :=
  match (σ.elicitations 0).bind Elicitation.reply with
  | some (.ok result) => result.action = .accept
  | _ => false

theorem accepted_reply {σ : Session} (h : accepted σ = true) : ∃ elicitation result,
    σ.elicitations 0 = some elicitation ∧ elicitation.reply = some (.ok result) := by
  rw [accepted] at h
  split at h
  · rename_i result hreply
    obtain ⟨elicitation, hasked, hreply⟩ := Option.bind_eq_some_iff.mp hreply
    exact ⟨elicitation, result, hasked, hreply⟩
  · cases h

theorem consenting_runs : ∃ es σ, Run (W := sessionWorld askable) (V := metaService gate)
    (Session.initial probeTools) (fun es σ e => dispatched es σ e = true) es σ ∧
      accepted σ.shared = true :=
  playAll_reaches (sessionResponder askable) consenting (by decide)

theorem questions_mediated_consent : ∃ (es : List (SessionEvent askable gate))
    (σ : SessionSystem askable gate) (elicitation : Elicitation) (result : CreateElicitationResult),
    Run (Session.initial probeTools) (fun es σ e => dispatched es σ e = true) es σ ∧
    Course askable 0 es (some elicitation) ∧ elicitation.reply = some (.ok result) ∧
      .outside (.answered 0 (.ok result)) ∈ es := by
  obtain ⟨es, σ, hr, haccepted⟩ := consenting_runs
  obtain ⟨elicitation, result, hasked, hreply⟩ := accepted_reply haccepted
  obtain ⟨hcourse, hconsent⟩ := questions_mediated askable gate probeTools hr 0
  exact ⟨es, σ, elicitation, result, hr, hasked ▸ hcourse, hreply,
    (hconsent elicitation result hasked hreply).2⟩

end Consent

end FaninMcp.ElicitationMediation
