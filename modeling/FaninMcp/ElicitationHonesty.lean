import FaninMcp.PermissionLayer
import FaninMcp.SessionWorld

/-!
# What upstreams are told about the client

An upstream is told once, by what the cell holds when its handler is asked, and
its questions are passed on by what the cell holds then. The loop that serves
requests runs before the cell is filled, so the two need not agree: they do for
every upstream that was told after that.
-/

set_option autoImplicit false

namespace FaninMcp.ElicitationHonesty
open Foundation.RustText Foundation.JsonText Foundation.AsyncPrograms FaninMcp.ConfigModel
  FaninMcp.RegistryModel FaninMcp.RegistryWorld FaninMcp.ElicitationModel FaninMcp.MetaTools
  FaninMcp.SingleFlight FaninMcp.CancellationSafety FaninMcp.PermissionLayer FaninMcp.SessionWorld

section Told
variable {S : Setting} {σ σ' : Session} {p q : DownstreamPeerCell → Prop}

/-- What upstreams have been told about, or are being told about. -/
structure Told (p : DownstreamPeerCell → Prop) (σ : Session) : Prop where
  handshakes : ∀ i cell, σ.handshakes i = .informed cell → p cell
  connections : ∀ connection ∈ σ.connections, p connection.cell

theorem told_mono (h : Told p σ) (hpq : ∀ cell, p cell → q cell) : Told q σ :=
  ⟨fun i cell hi => hpq cell (h.handshakes i cell hi),
    fun connection hc => hpq connection.cell (h.connections connection hc)⟩

theorem told_initial (tools : Entry → List Tool) : Told p (Session.initial tools) := by
  constructor
  · rintro i cell ⟨⟩
  · rintro connection ⟨⟩

theorem handshakeAfter_informed {handshake : Handshake} {op : Op} {cell : DownstreamPeerCell}
    (h : handshakeAfter handshake op = .informed cell) : handshake = .informed cell := by
  cases op <;> first | exact h | cases h

theorem connectionsAfter_cases {handshake : Handshake} {connections : List Connection} {op : Op}
    {ans : Ans op} {connection : Connection}
    (h : connection ∈ connectionsAfter handshake connections op ans) :
    connection ∈ connections ∨ handshake = .informed connection.cell ∧
      (⟨op, ans⟩ : Σ op, Ans op) =
        ⟨.serve connection.entry.server, .ok ⟨connection.entry, rfl⟩⟩ := by
  cases op <;> first | exact Or.inl h | skip
  case serve server =>
    cases ans with
    | error _ => exact Or.inl h
    | ok entry =>
      cases handshake with
      | idle | begun => exact Or.inl h
      | informed cell =>
        rcases List.mem_cons.mp h with rfl | hold
        · obtain ⟨entry, rfl⟩ := entry
          exact Or.inr ⟨rfl, rfl⟩
        · exact Or.inl hold

theorem told_after {i : ℕ} {op : Op} {ans : Ans op} (h : Told p σ) :
    Told p (σ.after S i op ans) := by
  constructor
  · intro j cell hj
    by_cases hij : j = i
    · subst hij
      simp only [Session.after, Function.update_self] at hj
      exact h.handshakes j cell (handshakeAfter_informed hj)
    · simp only [Session.after, Function.update_of_ne hij] at hj
      exact h.handshakes j cell hj
  · intro connection hc
    rcases connectionsAfter_cases hc with hold | ⟨hinformed, _⟩
    · exact h.connections connection hold
    · exact h.handshakes i _ hinformed

theorem told_release (h : Told p σ) (i : ℕ) : Told p ((sessionWorld S).release i σ) := by
  refine ⟨fun j cell hj => ?_, h.connections⟩
  by_cases hij : j = i
  · subst hij
    simp at hj
  · exact h.handshakes j cell (by simpa [hij] using hj)

theorem told_outside {happening : Happening} (h : Told p σ)
    (ho : σ.outside S happening = some σ') (hp : ∀ i, happening = .getInfo i → p σ.cell) :
    Told p σ' := by
  cases outside_happens ho with
  | @getInfo i _ =>
    refine ⟨fun j cell hj => ?_, h.connections⟩
    by_cases hij : j = i
    · subst hij
      simp only [Function.update_self, Handshake.informed.injEq] at hj
      exact hj ▸ hp j rfl
    · exact h.handshakes j cell (by simpa [hij] using hj)
  | registry _ | initialized _ | setDownstreamPeer _ | tick | cancel | elicit _ _ | answered _
  | expired _ _ => exact ⟨h.handshakes, h.connections⟩

theorem cell_outside {happening : Happening} (ho : σ.outside S happening = some σ') :
    σ'.cell = σ.cell ∨ σ'.cell = setPeer σ.cell ⟨some S.client⟩ := by
  cases outside_happens ho with
  | setDownstreamPeer _ => exact Or.inr rfl
  | registry _ | initialized _ | getInfo _ | tick | cancel | elicit _ _ | answered _
  | expired _ _ => exact Or.inl rfl

/-- The cell is empty or holds the client, and upstreams have been told about an
empty cell or about the present one. -/
structure Peered (S : Setting) (σ : Session) : Prop where
  cell : σ.cell = none ∨ σ.cell = some ⟨some S.client⟩
  told : Told (fun cell => cell = none ∨ cell = σ.cell) σ

theorem peered_outside {happening : Happening} (h : Peered S σ)
    (ho : σ.outside S happening = some σ') : Peered S σ' := by
  have htold := told_outside h.told ho fun _ _ => Or.inr rfl
  rcases cell_outside ho with hsame | hset
  · refine ⟨hsame ▸ h.cell, told_mono htold fun cell hc => ?_⟩
    rwa [hsame]
  · rcases h.cell with hnone | hsome
    · rw [hnone] at hset htold
      refine ⟨Or.inr hset, told_mono htold fun cell hc => ?_⟩
      exact Or.inl (hc.elim id id)
    · rw [hsome] at hset htold
      refine ⟨Or.inr hset, told_mono htold fun cell hc => ?_⟩
      rwa [hset]

theorem advertises_told {cell : DownstreamPeerCell} (h : Peered S σ)
    (hcell : cell = none ∨ cell = σ.cell) :
    Advertises cell ↔ cell.isSome = true ∧ Declares S.client := by
  rw [advertises_iff]
  rcases hcell with rfl | rfl
  · simp [available_none]
  · rcases h.cell with hnone | hsome
    · simp [hnone, available_none]
    · simp [hsome, available_some]

end Told

section Sessions
variable {S : Setting} {agg : Aggregator} {tools : Entry → List Tool}
  {K : List (SessionEvent S agg) → Session → SessionEvent S agg → Prop}
  {es : List (SessionEvent S agg)} {σ : SessionSystem S agg}

/-- Upstreams know what the client has declared, and have been told that they
may ask if and only if a question is passed on. -/
structure Honest (S : Setting) (σ : Session) : Prop where
  declared : Declares S.client → ∀ connection ∈ σ.connections, Advertises connection.cell
  serviced : ∀ connection ∈ σ.connections,
    Advertises connection.cell ↔ Forwards (S.handler connection.entry.server) σ.cell

/-- The cell had been filled when the upstream was told, or there was nothing to tell. -/
def ToldInTime (S : Setting) (cell : DownstreamPeerCell) : Prop :=
  cell.isSome = true ∨ ¬ Declares S.client

def InformsInTime (es : List (SessionEvent S agg)) (σ : Session) (e : SessionEvent S agg) : Prop :=
  Dispatched es σ e ∧ ∀ i, e = .outside (.getInfo i) → ToldInTime S σ.cell

theorem run_peered (h : Run (Session.initial tools) K es σ) : Peered S σ.shared := by
  refine run_invariant (I := Peered S) ⟨Or.inl rfl, told_initial tools⟩ ?_ ?_ ?_ h
  · rintro i σ op ans σ' hp ⟨_, _, rfl⟩
    exact ⟨hp.cell, told_after hp.told⟩
  · exact fun i σ hp => ⟨hp.cell, told_release hp.told i⟩
  · exact fun _ σ happening σ' hp _ ho => peered_outside hp ho

theorem run_told (h : Run (Session.initial tools) InformsInTime es σ) :
    Told (ToldInTime S) σ.shared := by
  refine run_invariant (I := Told (ToldInTime S)) (told_initial tools) ?_ ?_ ?_ h
  · rintro i σ op ans σ' ht ⟨_, _, rfl⟩
    exact told_after ht
  · exact fun i σ ht => told_release ht i
  · exact fun es σ happening σ' ht hk ho =>
      told_outside ht ho fun i hi => hk.2 i (congrArg _ hi)

theorem honest_iff {σ : Session} (h : Peered S σ) :
    Honest S σ ↔ ∀ connection ∈ σ.connections, ToldInTime S connection.cell := by
  have hadvertises := fun connection hc => advertises_told h (h.told.connections connection hc)
  constructor
  · intro hh connection hc
    by_cases hd : Declares S.client
    · exact Or.inl ((hadvertises connection hc).mp (hh.declared hd connection hc)).1
    · exact Or.inr hd
  · intro ht
    refine ⟨fun hd connection hc => ?_, fun connection hc => ?_⟩
    · exact (hadvertises connection hc).mpr ⟨(ht connection hc).resolve_right (not_not_intro hd), hd⟩
    · rw [hadvertises connection hc, forwards_iff, ← advertises_iff,
        advertises_told h (Or.inr rfl)]
      apply and_congr_left
      intro hd
      have hsome := (ht connection hc).resolve_right (not_not_intro hd)
      refine iff_of_true hsome ?_
      rcases h.told.connections connection hc with hnone | hsame
      · simp [hnone] at hsome
      · exact hsame ▸ hsome

/-- In every session, upstreams are told the truth exactly when the cell had
been filled whenever one was told, or the client declared nothing. -/
theorem elicitation_honest_exact (S : Setting) (agg : Aggregator) (tools : Entry → List Tool)
    {es : List (SessionEvent S agg)} {σ : SessionSystem S agg}
    (h : Run (Session.initial tools) Dispatched es σ) :
    (Honest S σ.shared ↔ ∀ connection ∈ σ.shared.connections, ToldInTime S connection.cell) ∧
      (Run (Session.initial tools) InformsInTime es σ → Honest S σ.shared) := by
  refine ⟨honest_iff (run_peered h), fun ht => ?_⟩
  exact (honest_iff (run_peered h)).mpr (run_told ht).connections

end Sessions

section Races

def askable : Setting where
  config := gateConfig
  client := ⟨{ elicitation := some [] }, ⟨"client".toList, "1".toList⟩⟩
  rate := 1

/-- `n` steps of a task in a session in which things go well. -/
def proceeds (i n : ℕ) : List (Choice (metaService gate) Hint Happening) :=
  List.replicate n (.act i .well)

/-- A request connects the probe, whose handler is asked for its info meanwhile. -/
def connecting : List (Choice (metaService gate) Hint Happening) :=
  .spawn 0 listRequest :: proceeds 0 11 ++ .outside (.getInfo 0) :: proceeds 0 6 ++
    .outside (.registry (.snapshot 0)) :: proceeds 0 11 ++ [.finish 0]

def question : CreateElicitationRequest := ⟨"Go on?".toList, []⟩

def raced : List (Choice (metaService gate) Hint Happening) :=
  .outside .initialized :: connecting ++
    [.outside .setDownstreamPeer, .outside (.elicit 0 probeEntry question)]

def dispatched (es : List (SessionEvent askable gate)) (σ : Session) :
    SessionEvent askable gate → Bool
  | .spawn i _ => σ.main ≠ .starting && es.all fun e => e.task ≠ some i
  | _ => true

theorem dispatched_sound (es : List (SessionEvent askable gate)) (σ : Session)
    (e : SessionEvent askable gate) (h : dispatched es σ e = true) : Dispatched es σ e := by
  cases e with
  | spawn i request => simpa [dispatched, Dispatched] using h
  | act _ _ _ | finish _ _ _ | drop _ | outside _ => trivial

/-- The probe has been told about an empty cell, and its question is passed on. -/
def misled (σ : Session) : Bool :=
  σ.connections.any (fun connection => connection.entry = probeEntry && connection.cell.isNone) &&
    (σ.pending 0).isSome && σ.cell.isSome

theorem raced_runs : ∃ es σ, Run (W := sessionWorld askable) (V := metaService gate)
    (Session.initial probeTools) (fun es σ e => dispatched es σ e = true) es σ ∧
      misled σ.shared = true :=
  playAll_reaches (sessionResponder askable) raced (by decide)

/-- An upstream of a client that can be asked is told it cannot, and yet its
question is passed on. -/
theorem upstream_misled : ∃ (es : List (SessionEvent askable gate)) (σ : SessionSystem askable gate),
    Run (Session.initial probeTools) Dispatched es σ ∧ Declares askable.client ∧
      ¬ Honest askable σ.shared ∧ ∃ connection ∈ σ.shared.connections,
        connection.entry = probeEntry ∧ ¬ Advertises connection.cell ∧
        Forwards (askable.handler "s".toList) σ.shared.cell ∧ (σ.shared.pending 0).isSome = true := by
  obtain ⟨es, σ, hr, hgoal⟩ := raced_runs
  replace hr := run_weaken dispatched_sound hr
  simp only [misled, Bool.and_eq_true, List.any_eq_true, decide_eq_true_eq] at hgoal
  obtain ⟨⟨⟨connection, hc, hentry, hnone⟩, hpending⟩, hfilled⟩ := hgoal
  have hd : Declares askable.client := rfl
  have hquiet : ¬ Advertises connection.cell := by
    rw [Option.isNone_iff_eq_none.mp hnone, advertises_iff]
    simp [available_none]
  have hforwards : Forwards (askable.handler "s".toList) σ.shared.cell := by
    rw [← advertises_forwards, advertises_told (run_peered hr) (Or.inr rfl)]
    exact ⟨hfilled, hd⟩
  exact ⟨es, σ, hr, hd, fun hh => hquiet (hh.declared hd connection hc), connection, hc, hentry,
    hquiet, hforwards, hpending⟩

def prompt : List (Choice (metaService gate) Hint Happening) :=
  .outside .initialized :: .outside .setDownstreamPeer :: connecting ++
    [.outside (.elicit 0 probeEntry question)]

def informs (es : List (SessionEvent askable gate)) (σ : Session)
    (e : SessionEvent askable gate) : Bool :=
  dispatched es σ e &&
    match e with
    | .outside (.getInfo _) => σ.cell.isSome
    | _ => true

theorem informs_sound (es : List (SessionEvent askable gate)) (σ : Session)
    (e : SessionEvent askable gate) (h : informs es σ e = true) : InformsInTime es σ e := by
  obtain ⟨hd, hfilled⟩ := Bool.and_eq_true_iff.mp h
  refine ⟨dispatched_sound es σ e hd, ?_⟩
  rintro i rfl
  exact Or.inl hfilled

theorem prompt_runs : ∃ es σ, Run (W := sessionWorld askable) (V := metaService gate)
    (Session.initial probeTools) (fun es σ e => informs es σ e = true) es σ ∧
      (σ.shared.connections.any fun connection => connection.entry = probeEntry) = true :=
  playAll_reaches (sessionResponder askable) prompt (by decide)

theorem elicitation_honest_prompt : ∃ (es : List (SessionEvent askable gate))
    (σ : SessionSystem askable gate),
    Run (Session.initial probeTools) Dispatched es σ ∧ Honest askable σ.shared ∧
    ∃ connection ∈ σ.shared.connections, connection.entry = probeEntry ∧
      Advertises connection.cell := by
  obtain ⟨es, σ, hr, hgoal⟩ := prompt_runs
  have ht := run_weaken informs_sound hr
  have hrun := run_weaken (fun _ _ _ hk => hk.1) ht
  obtain ⟨_, hhonest⟩ := elicitation_honest_exact askable gate probeTools hrun
  simp only [List.any_eq_true, decide_eq_true_eq] at hgoal
  obtain ⟨connection, hc, hentry⟩ := hgoal
  exact ⟨es, σ, hrun, hhonest ht, connection, hc, hentry, (hhonest ht).declared rfl connection hc⟩

end Races

end FaninMcp.ElicitationHonesty
