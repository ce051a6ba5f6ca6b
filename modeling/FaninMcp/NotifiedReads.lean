import Mathlib.Data.List.Infix
import FaninMcp.NotifiedEntry

/-!
# Reading after a notification

For everybody but the one who cleared the flag the entry looks fresh from then
on, while its cache still has the list from before. So a call that begins after
the notification reads a list fetched after it if and only if nobody is
refetching at that moment.
-/

set_option autoImplicit false

namespace FaninMcp.NotifiedReads
open Foundation.RustText Foundation.JsonText Foundation.AsyncPrograms FaninMcp.ConfigModel
  FaninMcp.ErrorModel FaninMcp.RegistryModel FaninMcp.RegistryWorld FaninMcp.RegistryProtocol
  FaninMcp.RegistryObeys FaninMcp.RegistryInvariant FaninMcp.SingleFlight
  FaninMcp.CancellationSafety FaninMcp.EntryLineage FaninMcp.MetaAcl FaninMcp.NotifiedEntry

section Replies
variable {config : TomlConfig} {server : Text} {read : Option Listing}

def readAfter (read : Option Listing) : (op : Op) → Ans op → Option Listing
  | .readTools _, l => some l
  | _, _ => read

abbrev readProtocol : Protocol registryOps := ⟨Option Listing, none, fun _ _ => True, readAfter⟩

/-- An inventory is the list that was read, and a tool is known or unknown by
that list. -/
def Shows : Call → Answer → Option Listing → Prop
  | .inventory _, .tools (.ok tools), read => ∃ l, read = some l ∧ tools = l.tools
  | .callTool _ tool _, .result (.error (.unknownTool _ _)), read =>
    ∃ l, read = some l ∧ ∀ found ∈ l.tools, found.name ≠ tool
  | .callTool _ tool _, .result (.ok _), read =>
    ∃ l, read = some l ∧ ∃ found ∈ l.tools, found.name = tool
  | _, _, _ => True

theorem read_inventory (entry : Entry) (read : Option Listing) :
    Obeys readProtocol (fun l ψ => ψ = some l) (readInventory entry) read :=
  ⟨trivial, fun _ => ⟨trivial, fun _ => ⟨trivial, fun _ => rfl⟩⟩⟩

theorem read_forward (entry : Entry) (tool : Text) (arguments : Option JsonObject) :
    Obeys readProtocol (fun _ ψ => ψ = read) (timed (forwardCall entry tool arguments)) read := by
  have hforward : (forwardCall entry tool arguments).All
      (fun op => ∀ φ ans, readAfter φ op ans = φ) (fun _ => True) :=
    ⟨fun _ _ => rfl, fun _ => ⟨fun _ _ => rfl, fun _ => trivial⟩⟩
  exact obeys_quiet (fun op hop => ⟨trivial, hop read⟩) (fun _ _ => rfl)
    (timed_all (fun _ _ => rfl) hforward)

theorem shows_failure {e : ToolError} (h : ErrorAbout config server e) (tool : Text)
    (arguments : Option JsonObject) :
    Shows (.callTool server tool arguments) (.result (.error e)) read := by
  cases h <;> trivial

theorem shows_serveCall (config : TomlConfig) (call : Call) :
    Obeys readProtocol (Shows call) (serveCall config call) none := by
  cases call with
  | connect server => exact obeys_bind (obeys_all (fun _ _ _ => trivial) (all_always (fun _ => trivial) _))
  | inventory server =>
    refine obeys_bind (obeys_bind (obeys_mono (fun out φ _ => ?_)
      (obeys_all (fun _ _ _ => trivial) (getOrConnect_all config))))
    rcases out with e | entry
    · trivial
    refine obeys_bind (obeys_mono (fun out φ _ => ?_)
      (obeys_all (fun _ _ _ => trivial) (ensureFresh_all config entry.2)))
    rcases out with e | _
    · trivial
    exact obeys_bind (obeys_mono (fun l φ hl => ⟨l, hl, rfl⟩) (read_inventory entry.1 φ))
  | callTool server tool arguments =>
    refine obeys_bind (obeys_bind (obeys_mono (fun out φ hout => ?_)
      (obeys_all (fun _ _ _ => trivial) (getOrConnect_all config))))
    rcases out with e | entry
    · exact shows_failure (hout e rfl) tool arguments
    refine obeys_bind (obeys_mono (fun out φ hout => ?_)
      (obeys_all (fun _ _ _ => trivial) (ensureFresh_all config entry.2)))
    rcases out with e | _
    · exact shows_failure (hout e rfl) tool arguments
    refine obeys_bind (obeys_mono (fun l φ hl => ?_) (read_inventory entry.1 φ))
    subst hl
    split_ifs with hfound
    · exact ⟨l, rfl, by simpa using hfound⟩
    · have hin : ∃ found ∈ l.tools, found.name = tool := by simpa using hfound
      refine obeys_bind (obeys_mono (fun out φ hφ => ?_) (read_forward entry.1 tool arguments))
      rcases out with _ | e | result
      · trivial
      · cases e <;> trivial
      · exact ⟨l, hφ, hin⟩

end Replies

section Runs
variable {config : TomlConfig} {tools : Entry → List Tool} {es : List (RegistryEvent config)}
  {σ : RegistrySystem config} {entry : Entry}

/-- A call that enters `ensure_fresh` after the notification reads a list that
was fetched after it. -/
def ReadsFresh (entry : Entry) (es : List (RegistryEvent config)) : Prop :=
  ∀ later earlier i l, es = later ++ .act i (.readTools entry) l::earlier →
    After entry (Begins i entry) earlier → FreshList entry l earlier

def ReadsSettled (entry : Entry) (es : List (RegistryEvent config)) : Prop :=
  ∀ later earlier i l, es = later ++ .act i (.readTools entry) l::earlier →
    After entry (Begins i entry) earlier → ∀ j, ¬ Owes earlier j entry

theorem fetched_since {K : List (RegistryEvent config) → Shared → RegistryEvent config → Prop}
    (h : Run (Shared.initial tools) K es σ) {i : ℕ} {l : Listing}
    (hf : (trail registryProtocol i es).fetched = some (entry, l)) :
    Since (Requests i entry []) (Receives i entry l) es := by
  induction h with
  | start => cases hf
  | @step es σ σ' e hr _ hs ih =>
    have hother : trail registryProtocol i (e::es) = trail registryProtocol i es →
        ¬ Requests i entry [] e → Since (Requests i entry []) (Receives i entry l) (e::es) :=
      fun hsame hnot => Or.inr ⟨hnot, ih (hsame ▸ hf)⟩
    cases hs with
    | outside _ => exact hother rfl fun hr => hr
    | @act j _ op _ ans _ _ _ =>
      by_cases hj : j = i
      · subst hj
        rw [trail, if_pos rfl] at hf
        rcases fetched_after hf with hnow | ⟨hold, hnot⟩
        · exact Or.inl hnow
        · exact Or.inr ⟨hnot, ih hold⟩
      · refine hother (by rw [trail, if_neg hj]) fun hreq => ?_
        cases op <;> first | exact hreq | exact hj hreq.1
    | @spawn j _ _ | @finish j _ _ _ | @drop j _ _ _ _ _ =>
      by_cases hj : j = i
      · rw [trail, if_pos hj] at hf
        cases hf
      · exact hother (by rw [trail, if_neg hj]) fun hr => hr

theorem unfailed (h : Run (Shared.initial tools) (Calm entry) es σ) (i : ℕ) :
    (trail glanceProtocol i es).failed = false := by
  induction h with
  | start => rfl
  | @step es σ σ' e _ hk hs ih =>
    cases hs with
    | outside _ => exact ih
    | @act j _ op _ ans _ _ _ =>
      by_cases hj : j = i
      · rw [trail, if_pos hj]
        cases op <;> first | exact ih | (cases ans <;> exact ih) | skip
        case poll =>
          cases ans with
          | false => exact ih
          | true => exact absurd rfl (hk.untimed j)
        case listReply =>
          cases ans with
          | error e => exact absurd rfl (hk.answered j _ e)
          | ok tools => exact ih
      · rw [trail, if_neg hj]
        exact ih
    | @spawn j _ _ | @finish j _ _ _ | @drop j _ _ _ _ _ =>
      rw [trail]
      split_ifs
      · rfl
      · exact ih

theorem run_noticed (h : Run (Shared.initial tools) (Calm entry) es σ) :
    Noticed entry es σ.shared := by
  induction h with
  | start => exact .before (by simp [Heard]) rfl fun i ho => by cases ho
  | @step es σ σ' e hr hk hs ih =>
    have hstep := hs
    cases hs with
    | @spawn i r hi =>
      refine noticed_quiet ih (quiet_restart (i := i) (fun ha => ha) (fun _ _ hf => hf)
        (fun _ hb => hb) (trail_spawn _ i r es) (trail_spawn _ i r es) ?_ ?_)
      · rw [trail_idle hr hi]
      · rw [trail_idle hr hi]
    | @act i r op next ans shared hi hp =>
      obtain ⟨ha, rfl⟩ := hp
      exact noticed_act ih hk (registry_consistent hr) (run_lineage hr)
        (fun fresh hf => fetched_since hr hf) (unfailed hr i)
        (may_of_step (obeys_serveCall config) hr hstep)
        (may_of_step (P := glanceProtocol) (glance_serveCall config) hr hstep) ha
    | @finish i r reply hi =>
      refine noticed_quiet ih (quiet_restart (i := i) (fun ha => ha) (fun _ _ hf => hf)
        (fun _ hb => hb) (trail_finish _ i r reply es) (trail_finish _ i r reply es) ?_ ?_)
      · exact (post_of_step (obeys_serveCall config) hr hstep).clean.refetch
      · exact post_of_step (P := glanceProtocol) (glance_serveCall config) hr hstep
    | @drop i _ _ _ _ _ => exact absurd rfl (hk.undropped i)
    | @outside e shared ho => exact noticed_outside ih hk ho

theorem late_read (h : Run (Shared.initial tools) (Calm entry) es σ) {i : ℕ} {l : Listing}
    {σ' : RegistrySystem config} (hs : Step σ (.act i (.readTools entry) l) σ')
    (hi : After entry (Begins i entry) es) :
    FreshList entry l es ↔ ∀ j, ¬ Owes es j entry := by
  have hg := may_of_step (P := glanceProtocol) (glance_serveCall config) h hs
  cases run_noticed h with
  | before unheard => exact absurd hi.1 unheard
  | raised _ _ _ _ _ due => exact absurd (hg.due entry (due i hi)) (by simp)
  | taken w _ _ _ owed stale =>
    exact iff_of_false (stale l) fun hnone => hnone w ((owed w).mpr rfl)
  | settled new _ _ _ unowed cached fresh =>
    obtain rfl : new = l := by
      cases hs with
      | act _ hp => exact Option.some.inj (cached.symm.trans hp.1)
    exact iff_of_true fresh unowed

end Runs

/-- In a run with one notification, nothing dropped and no failure, every call
that begins after the notification reads a list fetched after it exactly when
nobody is refetching as it reads. What it reads is what it returns, and what it
looks for the tool in. -/
theorem reads_fresh_exact (config : TomlConfig) (tools : Entry → List Tool) (entry : Entry)
    {es : List (RegistryEvent config)} {σ : RegistrySystem config}
    (h : Run (Shared.initial tools) (Calm entry) es σ) :
    (ReadsFresh entry es ↔ ReadsSettled entry es) ∧
      ∀ later earlier i call reply, es = later ++ .finish i call reply::earlier →
        Shows call reply (trail readProtocol i earlier) := by
  have hlate : ∀ later earlier i l, es = later ++ .act i (.readTools entry) l::earlier →
      After entry (Begins i entry) earlier →
        (FreshList entry l earlier ↔ ∀ j, ¬ Owes earlier j entry) := by
    intro later earlier i l hes hi
    obtain ⟨τ, τ', hr, _, hs⟩ := run_event h hes
    exact late_read hr hs hi
  refine ⟨⟨?_, ?_⟩, ?_⟩
  · intro hfresh later earlier i l hes hi
    exact (hlate later earlier i l hes hi).mp (hfresh later earlier i l hes hi)
  · intro hsettled later earlier i l hes hi
    exact (hlate later earlier i l hes hi).mpr (hsettled later earlier i l hes hi)
  · intro later earlier i call reply hes
    obtain ⟨τ, τ', hr, _, hs⟩ := run_event h hes
    exact post_of_step (P := readProtocol) (shows_serveCall config) hr hs

def announcing : List (Choice (registryService probeConfig) Hint Outside) :=
  .spawn 0 (.connect "s".toList) :: acts probeConfig 0 17 ++ .outside (.snapshot 0) ::
    acts probeConfig 0 7 ++ [.finish 0, .outside (.change probeEntry [⟨"b".toList, none, []⟩]),
      .outside (.handled probeEntry)]

/-- One call has asked for the list, and waits, when another one looks for the tool. -/
def overlooked : List (Choice (registryService probeConfig) Hint Outside) :=
  announcing ++ .spawn 1 (.inventory "s".toList) :: acts probeConfig 1 7 ++
    .spawn 2 (.callTool "s".toList "b".toList none) :: acts probeConfig 2 7 ++ [.finish 2]

def announces : RegistryEvent probeConfig → Bool
  | .outside (.handled e) => e = probeEntry
  | _ => false

theorem announces_iff (e : RegistryEvent probeConfig) :
    announces e = true ↔ Announces probeEntry e := by
  cases e with
  | outside e => cases e <;> simp [announces, Announces]
  | spawn _ _ | act _ _ _ | finish _ _ _ | drop _ => simp [announces, Announces]

def calm (es : List (RegistryEvent probeConfig)) (σ : Shared) : RegistryEvent probeConfig → Bool
  | .drop _ | .act _ .abandon _ | .act _ .poll true | .act _ (.listReply _) (.error _) => false
  | e => !announces e ||
    !es.any announces && (σ.entries "s".toList).map Subtype.val = some probeEntry

theorem calm_sound (es : List (RegistryEvent probeConfig)) (σ : Shared)
    (e : RegistryEvent probeConfig) (h : calm es σ e = true) : Calm probeEntry es σ e := by
  refine ⟨fun i hc => ?_, ?_, ?_, fun hann => ?_⟩
  · cases e with
    | act j op ans =>
      cases op <;> cases hc
      cases h
    | drop j => cases h
    | spawn _ _ | finish _ _ _ | outside _ => cases hc
  · rintro i rfl
    cases h
  · rintro i asked error rfl
    cases h
  · have hnow : announces e = true := (announces_iff e).mpr hann
    cases e <;> first | cases hann | skip
    rw [calm] at h
    · simp only [hnow, Bool.not_true, Bool.false_or, Bool.and_eq_true, Bool.not_eq_true',
        decide_eq_true_eq, List.any_eq_false] at h
      obtain ⟨hfirst, hentry⟩ := h
      refine ⟨?_, ?_⟩
      · rintro ⟨e, he, hee⟩
        exact hfirst e he ((announces_iff e).mpr hee)
      · obtain ⟨⟨entry, hs⟩, hfound, rfl⟩ := Option.map_eq_some_iff.mp hentry
        exact hfound
    all_goals simp

def misread : List (RegistryEvent probeConfig) → Bool
  | .finish 2 (.callTool server tool _) (.result (.error (.unknownTool _ _))) ::
      .act 2 (.release _) _ :: .act 2 (.readTools read) _ :: .act 2 (.acquire _) _ ::
      .act 2 (.loadDirty loaded) _ :: earlier =>
    server = "s".toList && tool = "b".toList && read = probeEntry && loaded = probeEntry &&
      earlier.any announces && (trail registryProtocol 1 earlier).refetch = some probeEntry
  | _ => false

theorem overlooked_runs : ∃ es σ, Run (W := registryWorld) (V := registryService probeConfig)
    (Shared.initial probeTools) (fun es σ e => calm es σ e = true) es σ ∧
      (misread es && (σ.shared.upstream probeEntry).tools.any (·.name = "b".toList)) = true :=
  playAll_reaches responder overlooked (by decide)

/-- A call that begins after the notification reads the old list, and does not
know the tool that was announced. -/
theorem announced_tool_unknown : ∃ (es : List (RegistryEvent probeConfig))
    (σ : RegistrySystem probeConfig), Run (Shared.initial probeTools) (Calm probeEntry) es σ ∧
      ¬ ReadsFresh probeEntry es ∧
      (σ.shared.upstream probeEntry).tools.any (·.name = "b".toList) = true ∧
      ∃ arguments s t, .finish 2 (.callTool "s".toList "b".toList arguments)
        (.result (.error (.unknownTool s t))) ∈ es := by
  obtain ⟨es, σ, hr, hgoal⟩ := overlooked_runs
  replace hr := run_weaken calm_sound hr
  simp only [Bool.and_eq_true] at hgoal
  obtain ⟨hread, hannounced⟩ := hgoal
  unfold misread at hread
  split at hread
  · rename_i server tool arguments s t _ _ _ l other u _ dirty earlier
    simp only [Bool.and_eq_true, decide_eq_true_eq] at hread
    obtain ⟨⟨⟨⟨⟨rfl, rfl⟩, rfl⟩, rfl⟩, hany⟩, howes⟩ := hread
    obtain ⟨e, he, hann⟩ := List.any_eq_true.mp hany
    have hheard : Heard probeEntry earlier := ⟨e, he, (announces_iff e).mp hann⟩
    refine ⟨_, σ, hr, fun hfresh => ?_, hannounced, arguments, s, t, List.mem_cons_self⟩
    obtain ⟨τ, τ', hτ, _, hs⟩ := run_event hr (show _ = [_, _] ++ _::_ from rfl)
    have hi : After probeEntry (Begins 2 probeEntry)
        (.act 2 (.acquire other) u::.act 2 (.loadDirty probeEntry) dirty::earlier) :=
      ⟨heard_cons.mpr (Or.inr (heard_cons.mpr (Or.inr hheard))),
        Or.inr ⟨fun hann => hann, Or.inl ⟨rfl, rfl⟩⟩⟩
    exact (late_read hτ hs hi).mp (hfresh [_, _] _ 2 l rfl hi) 1 howes
  · cases hread

def heeded : List (Choice (registryService probeConfig) Hint Outside) :=
  announcing ++ .spawn 1 (.inventory "s".toList) :: acts probeConfig 1 8 ++
    .outside (.snapshot 1) :: acts probeConfig 1 7 ++ .finish 1 ::
    .spawn 2 (.callTool "s".toList "b".toList none) :: acts probeConfig 2 11 ++ [.finish 2]

/-- Whenever a list is read, the first three tasks owe none, and there are no others. -/
def settledReads (es : List (RegistryEvent probeConfig)) : Bool :=
  es.tails.all fun
    | .act _ (.readTools _) _::earlier =>
      (List.range 3).all (fun i => (trail registryProtocol i earlier).refetch ≠ some probeEntry) &&
        earlier.all fun e => e.task.all (· < 3)
    | _ => true

theorem settledReads_sound {es : List (RegistryEvent probeConfig)} (h : settledReads es = true) :
    ReadsSettled probeEntry es := by
  rintro later earlier i l rfl _
  have hread := List.all_eq_true.mp h _ ((List.mem_tails _ _).mpr (List.suffix_append _ _))
  simp only [Bool.and_eq_true, List.all_eq_true, List.mem_range, decide_eq_true_eq] at hread
  exact unowed_of_few hread.1 hread.2

def wellRead (es : List (RegistryEvent probeConfig)) : Bool :=
  settledReads es &&
    match es with
    | .finish 2 (.callTool server tool _) (.result (.ok _))::_ =>
      server = "s".toList && tool = "b".toList
    | _ => false

theorem heeded_runs : ∃ es σ, Run (W := registryWorld) (V := registryService probeConfig)
    (Shared.initial probeTools) (fun es σ e => calm es σ e = true) es σ ∧ wellRead es = true :=
  playAll_reaches responder heeded (by decide)

theorem reads_fresh_heeded : ∃ (es later earlier : List (RegistryEvent probeConfig))
    (σ : RegistrySystem probeConfig),
    Run (Shared.initial probeTools) (Calm probeEntry) es σ ∧ ReadsFresh probeEntry es ∧
      ∃ arguments result, es = later ++
        .finish 2 (.callTool "s".toList "b".toList arguments) (.result (.ok result))::earlier ∧
      ∃ l, trail readProtocol 2 earlier = some l ∧ ∃ found ∈ l.tools, found.name = "b".toList := by
  obtain ⟨es, σ, hr, hgoal⟩ := heeded_runs
  have hrun := run_weaken calm_sound hr
  have hexact := reads_fresh_exact probeConfig probeTools probeEntry hrun
  simp only [wellRead, Bool.and_eq_true] at hgoal
  obtain ⟨hsettled, hanswered⟩ := hgoal
  split at hanswered
  · rename_i server tool arguments result earlier
    simp only [Bool.and_eq_true, decide_eq_true_eq] at hanswered
    obtain ⟨rfl, rfl⟩ := hanswered
    exact ⟨_, [], earlier, σ, hrun, hexact.1.mpr (settledReads_sound hsettled), arguments, result,
      rfl, hexact.2 [] earlier 2 _ _ rfl⟩
  · cases hanswered

end FaninMcp.NotifiedReads
