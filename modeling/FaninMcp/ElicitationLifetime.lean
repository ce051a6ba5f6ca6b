import FaninMcp.ElicitationHonesty

/-!
# How long a question lives

A call and a question its server asks meanwhile wait in different tasks, with a
timer each. The question's is set later, and dropping the call does not touch
it. So when a call is answered by its timer or its cancellation, whatever its
server has asked and nobody has answered can still be accepted.
-/

set_option autoImplicit false

namespace FaninMcp.ElicitationLifetime
open Foundation.RustText Foundation.JsonText Foundation.AsyncPrograms FaninMcp.ConfigModel
  FaninMcp.ErrorModel FaninMcp.RegistryModel FaninMcp.RegistryWorld FaninMcp.ElicitationModel
  FaninMcp.MetaTools FaninMcp.SingleFlight FaninMcp.CancellationSafety FaninMcp.PermissionLayer
  FaninMcp.SessionWorld FaninMcp.ElicitationHonesty

section Histories
variable {S : Setting} {agg : Aggregator}

/-- The server an `invoke_tool` request is for. -/
def target (request : Request) : Option Text :=
  if request.name = "invoke_tool".toList then
    ((stringArgument request.arguments "name".toList).bind parseServerTool).map Prod.fst
  else none

/-- `upstream_timeout` and `call_cancelled`. -/
def cutsShort : Reply → Bool
  | .failed (.upstreamTimeout _ _) | .failed (.callCancelled _ _) => true
  | _ => false

def running (i : ℕ) : List (SessionEvent S agg) → Option Request
  | [] => none
  | .spawn j request::es => if j = i then some request else running i es
  | .finish j _ _::es => if j = i then none else running i es
  | .drop j::es => if j = i then none else running i es
  | .act _ _ _::es => running i es
  | .outside _::es => running i es

def asksDuring (k i : ℕ) (es : List (SessionEvent S agg)) : SessionEvent S agg → Bool
  | .outside (.elicit j entry _) => j = k && (running i es).bind target = some entry.server
  | _ => false

def askedDuring (k i : ℕ) : List (SessionEvent S agg) → Bool
  | [] => false
  | e::es => asksDuring k i es e || askedDuring k i es

def endsShort (i : ℕ) : SessionEvent S agg → Bool
  | .finish j _ reply => j = i && cutsShort reply
  | _ => false

def endedShort (i : ℕ) (es : List (SessionEvent S agg)) : Bool := es.any (endsShort i)

def Acceptable (S : Setting) (σ : Session) (k : ℕ) : Prop :=
  ∃ content σ' elicitation, σ.outside S (.answered k (.ok ⟨.accept, content⟩)) = some σ' ∧
    σ'.elicitations k = some elicitation ∧ elicitation.reply = some (.ok ⟨.accept, content⟩)

def Bounded (es : List (SessionEvent S agg)) (σ : Session) : Prop :=
  ∀ i k, endedShort i es = true → askedDuring k i es = true → ¬ Acceptable S σ k

def fillsCell : SessionEvent S agg → Bool
  | .outside .setDownstreamPeer => true
  | _ => false

/-- The question went to the client, who has not answered it, nor has its own
timer fired. -/
def unanswered (k : ℕ) : List (SessionEvent S agg) → Bool
  | [] => false
  | .outside (.elicit j _ _)::es =>
    if j = k then es.any fillsCell && S.client.capabilities.elicitation.isSome
    else unanswered k es
  | .outside (.answered j _)::es => j ≠ k && unanswered k es
  | .outside (.expired j)::es => j ≠ k && unanswered k es
  | _::es => unanswered k es

/-- A call is answered by its timer or its cancellation only after everything
that was asked during it. -/
def SettledFirst (es : List (SessionEvent S agg)) (σ : Session) (e : SessionEvent S agg) : Prop :=
  Dispatched es σ e ∧
    ∀ i k, endsShort i e = true → askedDuring k i es = true → unanswered k es = false

theorem acceptable_iff {σ : Session} {k : ℕ} : Acceptable S σ k ↔ (σ.pending k).isSome = true := by
  constructor
  · rintro ⟨content, σ', _, ho, _⟩
    cases outside_happens ho with
    | answered hpending => simp [hpending]
  · intro h
    obtain ⟨elicitation, hpending⟩ := Option.isSome_iff_exists.mp h
    have haccepted : σ.outside S (.answered k (.ok ⟨.accept, none⟩)) = some (σ.setElicitation k
        (@Elicitation.settle ServiceError elicitation (.ok ⟨.accept, none⟩))) := by
      rw [Session.outside, hpending, Option.map_some]
    exact ⟨none, _, _, haccepted, Function.update_self .., rfl⟩

end Histories

section Runs
variable {S : Setting} {agg : Aggregator} {tools : Entry → List Tool}
  {K : List (SessionEvent S agg) → Session → SessionEvent S agg → Prop}
  {es : List (SessionEvent S agg)} {σ σ' : SessionSystem S agg} {e : SessionEvent S agg} {i k : ℕ}

theorem pending_elsewhere {σ : Session} {j : ℕ} {elicitation : Elicitation} (h : k ≠ j) :
    (σ.setElicitation j elicitation).elicitations k = σ.elicitations k ∧
      (σ.setElicitation j elicitation).pending k = σ.pending k := by
  simp [Session.pending, Session.setElicitation, h]

theorem settle_step {ε : Type} {σ : Session} {j : ℕ} {elicitation : Elicitation}
    {outcome : Except ε CreateElicitationResult} (hasked : (σ.elicitations k).isSome = true) :
    ((σ.setElicitation j (elicitation.settle outcome)).elicitations k).isSome = true ∧
      (σ.pending k = none →
        (σ.setElicitation j (elicitation.settle outcome)).pending k = none) := by
  by_cases hj : k = j
  · subst hj
    simp [Session.pending, Session.setElicitation, Elicitation.settle]
  · obtain ⟨hsame, hpending⟩ := @pending_elsewhere k σ j (elicitation.settle outcome) hj
    rw [hsame, hpending]
    exact ⟨hasked, id⟩

theorem asked_step (h : Step σ e σ') (hasked : (σ.shared.elicitations k).isSome = true) :
    (σ'.shared.elicitations k).isSome = true ∧
      (σ.shared.pending k = none → σ'.shared.pending k = none) := by
  cases h with
  | spawn _ _ => exact ⟨hasked, id⟩
  | act _ hp =>
    obtain ⟨_, _, rfl⟩ := hp
    exact ⟨hasked, id⟩
  | finish _ => exact ⟨hasked, id⟩
  | drop _ _ => exact ⟨hasked, id⟩
  | outside ho =>
    cases outside_happens ho with
    | registry _ | initialized _ | setDownstreamPeer _ | getInfo _ | tick | cancel =>
      exact ⟨hasked, id⟩
    | answered _ => exact settle_step hasked
    | expired _ _ => exact settle_step hasked
    | @elicit j entry request _ hnone =>
      have hj : k ≠ j := by
        rintro rfl
        simp [hnone] at hasked
      obtain ⟨hsame, hpending⟩ := @pending_elsewhere k σ.shared j (startElicitation
        (S.handler entry.server) σ.shared.cell σ.shared.now request) hj
      dsimp only
      rw [hsame, hpending]
      exact ⟨hasked, id⟩

theorem asking_elicits {S : Setting} {agg : Aggregator} {es : List (SessionEvent S agg)}
    {e : SessionEvent S agg} {i k : ℕ} (h : asksDuring k i es e = true) :
    ∃ entry request, e = .outside (.elicit k entry request) := by
  cases e with
  | outside happening =>
    cases happening <;> first | cases h | skip
    case elicit j entry request =>
      simp only [asksDuring, Bool.and_eq_true, decide_eq_true_eq] at h
      obtain ⟨rfl, _⟩ := h
      exact ⟨entry, request, rfl⟩
  | spawn _ _ | act _ _ _ | finish _ _ _ | drop _ => cases h

theorem elicit_step {entry : Entry} {request : CreateElicitationRequest}
    (h : Step σ (.outside (.elicit k entry request)) σ') :
    (σ'.shared.elicitations k).isSome = true := by
  cases h with
  | @outside _ shared ho =>
    cases @outside_happens S σ.shared shared (.elicit k entry request) ho with
    | elicit _ _ => simp [Session.setElicitation]

theorem asked_known (h : Run (Session.initial tools) K es σ) (hasked : askedDuring k i es = true) :
    (σ.shared.elicitations k).isSome = true := by
  induction h with
  | start => cases hasked
  | @step es σ σ' e _ _ hs ih =>
    rw [askedDuring, Bool.or_eq_true] at hasked
    rcases hasked with hnow | hold
    · obtain ⟨entry, request, rfl⟩ := asking_elicits hnow
      exact elicit_step hs
    · exact (asked_step hs (ih hold)).1

theorem run_filled (h : Run (Session.initial tools) K es σ) :
    σ.shared.cell.isSome = es.any fillsCell := by
  induction h with
  | start => rfl
  | @step es σ σ' e _ _ hs ih =>
    cases hs with
    | act _ hp =>
      obtain ⟨_, _, rfl⟩ := hp
      exact ih
    | spawn _ _ | finish _ | drop _ _ => exact ih
    | outside ho =>
      cases outside_happens ho with
      | setDownstreamPeer _ =>
        dsimp only
        cases σ.shared.cell <;> rfl
      | registry _ | initialized _ | getInfo _ | tick | cancel | elicit _ _ | answered _
      | expired _ _ => exact ih

theorem start_waits {handler : UpstreamClientHandler} {cell : DownstreamPeerCell} {now : ℕ}
    {request : CreateElicitationRequest} :
    (startElicitation handler cell now request).reply.isNone =
      (downstreamElicitationAvailable cell).isSome := by
  rw [startElicitation, UpstreamClientHandler.createElicitation]
  cases downstreamElicitationAvailable cell <;> rfl

theorem pending_set {σ : Session} {elicitation : Elicitation} :
    ((σ.setElicitation k elicitation).pending k).isSome = elicitation.reply.isNone := by
  simp only [Session.pending, Session.setElicitation, Function.update_self, Option.filter_some]
  cases elicitation.reply <;> rfl

theorem pending_settle {σ : Session} {j : ℕ} {ε : Type} {elicitation : Elicitation}
    {outcome : Except ε CreateElicitationResult} :
    ((σ.setElicitation j (elicitation.settle outcome)).pending k).isSome =
      (j ≠ k && (σ.pending k).isSome) := by
  by_cases hj : j = k
  · subst hj
    rw [pending_set]
    simp [Elicitation.settle]
  · rw [(pending_elsewhere (Ne.symm hj)).2]
    simp [hj]

theorem pending_unanswered (h : Run (Session.initial tools) K es σ) :
    (σ.shared.pending k).isSome = unanswered k es := by
  induction h with
  | start => rfl
  | @step es σ σ' e hr _ hs ih =>
    cases hs with
    | act _ hp =>
      obtain ⟨_, _, rfl⟩ := hp
      exact ih
    | spawn _ _ | finish _ | drop _ _ => exact ih
    | outside ho =>
      cases outside_happens ho with
      | registry _ | initialized _ | setDownstreamPeer _ | getInfo _ | tick | cancel => exact ih
      | @elicit j entry request _ _ =>
        rw [unanswered]
        split_ifs with hj
        · subst hj
          rw [pending_set, start_waits, Bool.eq_iff_iff, ← advertises_iff,
            advertises_told (run_peered hr) (Or.inr rfl), run_filled hr, Bool.and_eq_true, Declares]
        · exact (congrArg Option.isSome (pending_elsewhere (Ne.symm hj)).2).trans ih
      | answered _ | expired _ _ => rw [unanswered, pending_settle, ih]

theorem ended_stopped (h : Run (Session.initial tools) K es σ)
    (hk : ∀ es σ e, K es σ e → Dispatched es σ e) (hended : endedShort i es = true) :
    running i es = none := by
  induction h with
  | start => rfl
  | @step es σ σ' e _ hd _ ih =>
    rw [endedShort, List.any_cons, Bool.or_eq_true] at hended
    cases e with
    | spawn j request =>
      have hold : endedShort i es = true := hended.resolve_left (by simp [endsShort])
      rw [running, if_neg ?_]
      · exact ih hold
      · rintro rfl
        obtain ⟨e, he, hends⟩ := List.any_eq_true.mp hold
        refine (hk _ _ _ hd).2 e he ?_
        cases e <;> first | cases hends | skip
        simp only [endsShort, Bool.and_eq_true, decide_eq_true_eq] at hends
        exact congrArg some hends.1
    | finish j request reply =>
      rw [running]
      split_ifs with hj
      · rfl
      · exact ih (hended.resolve_left (by simp [endsShort, hj]))
    | drop j =>
      rw [running]
      split_ifs
      · rfl
      · exact ih (hended.resolve_left (by simp [endsShort]))
    | act j op ans => exact ih (hended.resolve_left (by simp [endsShort]))
    | outside happening => exact ih (hended.resolve_left (by simp [endsShort]))

theorem run_bounded (h : Run (Session.initial tools) SettledFirst es σ) :
    ∀ i k, endedShort i es = true → askedDuring k i es = true → σ.shared.pending k = none := by
  induction h with
  | start =>
    intro i k hended
    cases hended
  | @step es σ σ' e hr hk hs ih =>
    intro i k hended hasked
    rw [endedShort, List.any_cons, Bool.or_eq_true] at hended
    rw [askedDuring, Bool.or_eq_true] at hasked
    rcases hasked with hnow | hold
    · exfalso
      obtain ⟨entry, request, rfl⟩ := asking_elicits hnow
      have hbefore : endedShort i es = true := hended.resolve_left (by simp [endsShort])
      have hnone := ended_stopped hr (fun _ _ _ hk => hk.1) hbefore
      simp [asksDuring, hnone] at hnow
    · apply (asked_step hs (asked_known hr hold)).2
      rcases hended with hends | hbefore
      · rw [← Option.not_isSome_iff_eq_none, pending_unanswered hr, hk.2 i k hends hold]
        exact Bool.false_ne_true
      · exact ih i k hbefore hold

theorem performs_once (i : ℕ) (σ : Session) (op : Op) (ans : Ans op) (σ₁ σ₂ : Session)
    (h₁ : (sessionWorld S).Performs i σ op ans σ₁) (h₂ : (sessionWorld S).Performs i σ op ans σ₂) :
    σ₁ = σ₂ :=
  h₁.2.2.trans h₂.2.2.symm

theorem settled_of_bounded (h : Run (Session.initial tools) Dispatched es σ)
    (hbounded : ∀ later earlier (τ : SessionSystem S agg), es = later ++ earlier →
      Run (Session.initial tools) Dispatched earlier τ → Bounded earlier τ.shared) :
    Run (Session.initial tools) SettledFirst es σ := by
  induction h with
  | start => exact Run.start
  | @step es σ σ' e hr hd hs ih =>
    have hrest : Run (Session.initial tools) SettledFirst es σ := by
      apply ih
      rintro later earlier τ rfl hτ
      exact hbounded (e::later) earlier τ rfl hτ
    refine Run.step hrest ⟨hd, fun i k hends hasked => ?_⟩ hs
    have hended : endedShort i (e::es) = true := by simp [endedShort, hends]
    have hnot := hbounded [] (e::es) σ' rfl (Run.step hr hd hs) i k hended
      (by simp [askedDuring, hasked])
    cases hs with
    | finish _ =>
      rw [acceptable_iff, assign_shared, pending_unanswered hr] at hnot
      simpa using hnot
    | spawn _ _ | act _ _ | drop _ _ | outside _ => cases hends

end Runs

/-- In every session: no question ever outlives a call during which it was
asked, if and only if calls are answered by their timer or their cancellation
only after everything that was asked during them. -/
theorem elicitation_bounded_exact (S : Setting) (agg : Aggregator) (tools : Entry → List Tool)
    {es : List (SessionEvent S agg)} {σ : SessionSystem S agg}
    (h : Run (Session.initial tools) Dispatched es σ) :
    (∀ later earlier (τ : SessionSystem S agg), es = later ++ earlier →
      Run (Session.initial tools) Dispatched earlier τ → Bounded earlier τ.shared) ↔
      Run (Session.initial tools) SettledFirst es σ := by
  refine ⟨settled_of_bounded h, fun hsettled => ?_⟩
  rintro later earlier τ rfl hτ i k hended hasked
  obtain ⟨τ', hτ'⟩ := run_prefix hsettled
  obtain rfl := run_unique performs_once hτ hτ'
  simp [acceptable_iff, run_bounded hτ' i k hended hasked]

section Prompts

/-- The probe's tool has been called, and its server asks one tick later. -/
def asking : List (Choice (metaService gate) Hint Happening) :=
  .outside .initialized :: .outside .setDownstreamPeer :: connecting ++
    .spawn 1 invokeRequest :: proceeds 1 13 ++
    [.outside .tick, .outside (.elicit 0 probeEntry question)]

def elapsing : List (Choice (metaService gate) Hint Happening) :=
  List.replicate 59 (.outside .tick) ++ [.act 1 .well, .act 1 .fires, .finish 1]

def outlives (es : List (SessionEvent askable gate)) (σ : Session) : Bool :=
  endedShort 1 es && askedDuring 0 1 es && (σ.pending 0).isSome && σ.now = 60

theorem elapsing_runs : ∃ es σ, Run (W := sessionWorld askable) (V := metaService gate)
    (Session.initial probeTools) (fun es σ e => dispatched es σ e = true) es σ ∧
      outlives es σ.shared = true :=
  playAll_reaches (sessionResponder askable) (asking ++ elapsing) (by decide)

/-- The call has been answered at its deadline, and the question that was asked
during it can still be accepted. -/
theorem question_outlives_call : ∃ (es : List (SessionEvent askable gate))
    (σ : SessionSystem askable gate), Run (Session.initial probeTools) Dispatched es σ ∧
      ¬ Bounded es σ.shared ∧ endedShort 1 es = true ∧ askedDuring 0 1 es = true ∧
      Acceptable askable σ.shared 0 ∧ σ.shared.now = askable.effectiveTimeout "s".toList := by
  obtain ⟨es, σ, hr, hgoal⟩ := elapsing_runs
  simp only [outlives, Bool.and_eq_true, decide_eq_true_eq] at hgoal
  obtain ⟨⟨⟨hended, hasked⟩, hpending⟩, hnow⟩ := hgoal
  have hacceptable : Acceptable askable σ.shared 0 := acceptable_iff.mpr hpending
  exact ⟨es, σ, run_weaken dispatched_sound hr, fun hb => hb 1 0 hended hasked hacceptable, hended,
    hasked, hacceptable, hnow.trans rfl⟩

def settles (es : List (SessionEvent askable gate)) (σ : Session)
    (e : SessionEvent askable gate) : Bool :=
  dispatched es σ e &&
    match e with
    | .finish _ _ _ => es.all fun asked =>
      match asked with
      | .outside (.elicit k _ _) => !unanswered k es
      | _ => true
    | _ => true

theorem asked_elicited {S : Setting} {agg : Aggregator} {es : List (SessionEvent S agg)} {i k : ℕ}
    (h : askedDuring k i es = true) : ∃ entry request, .outside (.elicit k entry request) ∈ es := by
  induction es with
  | nil => cases h
  | cons e es ih =>
    rw [askedDuring, Bool.or_eq_true] at h
    rcases h with hnow | hold
    · obtain ⟨entry, request, rfl⟩ := asking_elicits hnow
      exact ⟨entry, request, List.mem_cons_self⟩
    · obtain ⟨entry, request, hin⟩ := ih hold
      exact ⟨entry, request, List.mem_cons_of_mem _ hin⟩

theorem settles_sound (es : List (SessionEvent askable gate)) (σ : Session)
    (e : SessionEvent askable gate) (h : settles es σ e = true) : SettledFirst es σ e := by
  obtain ⟨hd, hsettled⟩ := Bool.and_eq_true_iff.mp h
  refine ⟨dispatched_sound es σ e hd, fun i k hends hasked => ?_⟩
  obtain ⟨entry, request, hin⟩ := asked_elicited hasked
  cases e with
  | finish _ _ _ => simpa using List.all_eq_true.mp hsettled _ hin
  | spawn _ _ | act _ _ _ | drop _ | outside _ => cases hends

theorem settling_runs : ∃ es σ, Run (W := sessionWorld askable) (V := metaService gate)
    (Session.initial probeTools) (fun es σ e => settles es σ e = true) es σ ∧
      (endedShort 1 es && askedDuring 0 1 es) = true :=
  playAll_reaches (sessionResponder askable)
    (asking ++ .outside (.answered 0 (.ok ⟨.accept, none⟩)) :: elapsing) (by decide)

theorem elicitation_bounded_settling : ∃ (es : List (SessionEvent askable gate))
    (σ : SessionSystem askable gate), Run (Session.initial probeTools) Dispatched es σ ∧
    endedShort 1 es = true ∧ askedDuring 0 1 es = true ∧
      ∀ later earlier (τ : SessionSystem askable gate), es = later ++ earlier →
        Run (Session.initial probeTools) Dispatched earlier τ → Bounded earlier τ.shared := by
  obtain ⟨es, σ, hr, hgoal⟩ := settling_runs
  have hsettled := run_weaken settles_sound hr
  obtain ⟨hended, hasked⟩ := Bool.and_eq_true_iff.mp hgoal
  have hrun := run_weaken (fun _ _ _ hk => hk.1) hsettled
  exact ⟨es, σ, hrun, hended, hasked,
    (elicitation_bounded_exact askable gate probeTools hrun).mpr hsettled⟩

end Prompts

end FaninMcp.ElicitationLifetime
