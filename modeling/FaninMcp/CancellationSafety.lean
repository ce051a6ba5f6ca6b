import FaninMcp.SingleFlight

/-!
# Invalidation under cancellation

A refresh clears the dirty flag before it waits for the upstream, and puts it
back on the paths on which it returns an error. A future that is dropped while
it waits returns on no path: the flag stays clear and the notification it stood
for is forgotten, unless another one has set the flag meanwhile.
-/

set_option autoImplicit false

namespace FaninMcp.CancellationSafety
open Foundation.RustText Foundation.JsonText Foundation.AsyncPrograms FaninMcp.ConfigModel
  FaninMcp.ErrorModel FaninMcp.RegistryModel FaninMcp.RegistryWorld FaninMcp.RegistryProtocol
  FaninMcp.RegistryObeys FaninMcp.RegistryInvariant FaninMcp.SingleFlight

abbrev RegistryEvent (config : TomlConfig) := Event registryWorld (registryService config)

abbrev RegistrySystem (config : TomlConfig) := System registryWorld (registryService config)

section Endings
variable {config : TomlConfig}

/-- The task has cleared the entry's flag, and since then neither installed a
list nor set the flag again. -/
def Owes (es : List (RegistryEvent config)) (i : ℕ) (entry : Entry) : Prop :=
  (trail registryProtocol i es).refetch = some entry

/-- The task's future is dropped, from outside or by a `select!`. -/
def Cancels (i : ℕ) : RegistryEvent config → Prop
  | .drop j => j = i
  | .act j .abandon _ => j = i
  | _ => False

/-- The refresh of the task is over: its future ends or is dropped, or it goes
on to read the inventory or to forward the call. -/
def RefreshOver (i : ℕ) : RegistryEvent config → Prop
  | .finish j _ _ => j = i
  | .act j (.readTools _) _ => j = i
  | .act j (.callRequest _ _ _) _ => j = i
  | e => Cancels i e

/-- A refresh that is over, and has cleared the flag without installing a list,
leaves the flag set. -/
def SafeRun (tools : Entry → List Tool) (es : List (RegistryEvent config)) : Prop :=
  ∀ later e earlier τ τ' i entry, es = later ++ e::earlier →
    Run (Shared.initial tools) Any earlier τ → Step τ e τ' → RefreshOver i e →
      Owes earlier i entry → τ'.shared.dirty entry = true

/-- A future is only dropped when its refresh owes nothing, or the flag has been
set again in the meantime. -/
def DropsKeepSignal (es : List (RegistryEvent config)) (σ : Shared) (e : RegistryEvent config) :
    Prop :=
  ∀ i entry, Cancels i e → Owes es i entry → σ.dirty entry = true

theorem performs_unique (i : ℕ) (σ : Shared) (op : Op) (ans : Ans op) (σ₁ σ₂ : Shared)
    (h₁ : Performs i σ op ans σ₁) (h₂ : Performs i σ op ans σ₂) : σ₁ = σ₂ :=
  h₁.2.trans h₂.2.symm

variable {tools : Entry → List Tool} {es : List (RegistryEvent config)}
  {K : List (RegistryEvent config) → Shared → RegistryEvent config → Prop}
  {σ σ' : RegistrySystem config} {e : RegistryEvent config} {i : ℕ} {entry : Entry}

theorem over_cancels (h : Run (Shared.initial tools) K es σ) (hs : Step σ e σ')
    (ho : RefreshOver i e) (hi : Owes es i entry) : Cancels i e := by
  have hnot : (trail registryProtocol i es).refetch ≠ none := by
    rw [show (trail registryProtocol i es).refetch = some entry from hi]
    simp
  cases e with
  | finish j request reply =>
    obtain rfl : j = i := ho
    exact absurd (post_of_step (obeys_serveCall config) h hs).clean.refetch hnot
  | act j op ans =>
    have hm : may (trail registryProtocol j es) op := may_of_step (obeys_serveCall config) h hs
    cases op with
    | readTools _ | callRequest _ _ _ =>
      obtain rfl : j = i := ho
      exact absurd hm.2.1 hnot
    | _ => exact ho
  | _ => exact ho

theorem cancel_keeps_dirty (hs : Step σ e σ') (hc : Cancels i e) :
    σ'.shared.dirty = σ.shared.dirty := by
  cases hs with
  | @act _ _ op _ _ _ _ hp =>
    rw [assign_shared, hp.2]
    cases op <;> first | rfl | cases hc
  | drop _ _ => rfl
  | spawn _ _ | finish _ | outside _ => cases hc

theorem safe_of_drops (h : Run (Shared.initial tools) DropsKeepSignal es σ) : SafeRun tools es := by
  intro later e earlier τ τ' i entry hes hτ hs ho hi
  obtain ⟨τ₀, _, hr, hk, _⟩ := run_event h hes
  obtain rfl := run_unique performs_unique hr hτ
  have hc := over_cancels hr hs ho hi
  rw [cancel_keeps_dirty hs hc]
  exact hk i entry hc hi

theorem drops_of_safe (h : Run (Shared.initial tools) Any es σ) (hsafe : SafeRun tools es) :
    Run (Shared.initial tools) DropsKeepSignal es σ := by
  induction h with
  | start => exact Run.start
  | @step es σ σ' e hr _ hs ih =>
    refine Run.step (ih fun later e' earlier τ τ' i entry hes => ?_) (fun i entry hc hi => ?_) hs
    · exact hsafe (e::later) e' earlier τ τ' i entry (by rw [hes, List.cons_append])
    · have hover : RefreshOver i e := by
        cases e with
        | act j op ans => cases op <;> first | exact hc | cases hc
        | drop j => exact hc
        | spawn _ _ | finish _ _ _ | outside _ => cases hc
      rw [← cancel_keeps_dirty hs hc]
      exact hsafe [] e es σ σ' i entry rfl hr hs hover hi

end Endings

section Signals
variable {config : TomlConfig}

inductive Signal where
  | never
  | raised
  | taken (i : ℕ)

def signal (entry : Entry) : List (RegistryEvent config) → Signal
  | [] => .never
  | .act i (.swapDirty e) dirty::es =>
    if e = entry ∧ dirty = true then .taken i else signal entry es
  | .act _ (.storeDirty e) _::es => if e = entry then .raised else signal entry es
  | .act _ (.serve _) (.ok e)::es => if e.1 = entry then .never else signal entry es
  | .outside (.handled e)::es => if e = entry then .raised else signal entry es
  | _::es => signal entry es

def Clears (i : ℕ) (entry : Entry) : RegistryEvent config → Prop
  | .act j (.swapDirty e) dirty => j = i ∧ e = entry ∧ dirty = true
  | _ => False

def Requests (i : ℕ) (entry : Entry) (_ : List (RegistryEvent config)) :
    RegistryEvent config → Prop
  | .act j (.listRequest e) _ => j = i ∧ e = entry
  | _ => False

/-- The task installs a list it has asked for since it cleared the flag. -/
def Installs (i : ℕ) (entry : Entry) (es : List (RegistryEvent config)) :
    RegistryEvent config → Prop
  | .act j (.writeTools e _) _ => j = i ∧ e = entry ∧ Since (Clears i entry) (Requests i entry) es
  | _ => False

/-- The last notification is still flagged, or whoever took the flag is
refetching or has since installed a list. -/
def SignalKept (entry : Entry) (es : List (RegistryEvent config)) (σ : Shared) : Prop :=
  match signal entry es with
  | .never => σ.dirty entry = false
  | .raised => σ.dirty entry = true
  | .taken i => σ.dirty entry = false ∧
      (Owes es i entry ∨ Since (Clears i entry) (Installs i entry) es)

section Frames
variable {es : List (RegistryEvent config)} {σ σ' : Shared} {e : RegistryEvent config} {i : ℕ}
  {op : Op} {ans : Ans op} {entry : Entry} {φ : Trail}

def isSignalling : Op → Bool
  | .swapDirty _ | .storeDirty _ | .writeTools _ _ | .serve _ | .abandon => true
  | _ => false

theorem refetch_frame (hop : isSignalling op = false) : (after φ op ans).refetch = φ.refetch := by
  cases op <;> first | rfl | (cases ans <;> rfl) | cases hop

theorem dirty_frame (hop : isSignalling op = false) : (effect i σ op ans).dirty = σ.dirty := by
  cases op <;> first | rfl | (cases ans <;> rfl) | cases hop

theorem signal_frame (hop : isSignalling op = false) :
    signal entry (.act i op ans::es) = signal entry es := by
  cases op <;> first | rfl | cases hop

theorem owes_act (i j : ℕ) (op : Op) (ans : Ans op) : Owes (.act j op ans::es) i entry ↔
    (if j = i then after (trail registryProtocol i es) op ans
      else trail registryProtocol i es).refetch = some entry := Iff.rfl

theorem kept_frame (hsig : signal entry (e::es) = signal entry es)
    (hdirty : σ'.dirty entry = σ.dirty entry) (hclear : ∀ i, ¬ Clears i entry e)
    (howes : ∀ i, σ.dirty entry = false → Owes es i entry →
      Owes (e::es) i entry ∨ Installs i entry es e)
    (h : SignalKept entry es σ) : SignalKept entry (e::es) σ' := by
  rw [SignalKept] at h ⊢
  rw [hsig, hdirty]
  cases hs : signal entry es with
  | never | raised => simpa only [hs] using h
  | taken i =>
    simp only [hs] at h ⊢
    refine ⟨h.1, ?_⟩
    rcases h.2 with ho | hi
    · exact (howes i h.1 ho).imp_right Or.inl
    · exact Or.inr (Or.inr ⟨hclear i, hi⟩)

def Trail.Asking (φ : Trail) (entry : Entry) : Prop :=
  φ.asked = some entry ∨ ∃ fresh, φ.fetched = some (entry, fresh)

theorem asking_after (hm : may φ op) (hr : (after φ op ans).refetch = some entry)
    (ha : Trail.Asking (after φ op ans) entry) :
    op = .listRequest entry ∨ φ.refetch = some entry ∧ Trail.Asking φ entry := by
  cases op <;> first
    | exact Or.inr ⟨hr, ha⟩
    | cases hr
    | skip
  case entriesGet => cases ans <;> exact Or.inr ⟨hr, ha⟩
  case serve =>
    cases ans with
    | error _ => exact Or.inr ⟨hr, ha⟩
    | ok _ => simp [after, Trail.Asking] at ha
  case swapDirty =>
    cases ans with
    | false => exact Or.inr ⟨hr, ha⟩
    | true => simp [after, Trail.Asking] at ha
  case listRequest asked =>
    left
    simpa [after, Trail.Asking] using ha
  case listReply asked =>
    cases ans with
    | error _ =>
      refine Or.inr ⟨hr, Or.inr ?_⟩
      simpa [after, Trail.Asking] using ha
    | ok fresh =>
      have hsame : asked = entry := by simpa [after, Trail.Asking] using ha
      exact Or.inr ⟨hr, Or.inl (hsame ▸ hm)⟩

def Asked (es : List (RegistryEvent config)) : Prop :=
  ∀ i entry, Owes es i entry → Trail.Asking (trail registryProtocol i es) entry →
    Since (Clears i entry) (Requests i entry) es

theorem asked_act (h : Asked es) (hm : may (trail registryProtocol i es) op) :
    Asked (.act i op ans::es) := by
  intro j entry ho ha
  by_cases hj : i = j
  · subst hj
    simp only [owes_act, trail, if_true] at ho ha
    rcases asking_after hm ho ha with rfl | ⟨hr, has⟩
    · exact Or.inl ⟨rfl, rfl⟩
    · refine Or.inr ⟨?_, h i entry hr has⟩
      intro hclear
      cases op <;> try exact hclear
      simp [after, hclear.2.2, Trail.Asking] at ha
  · simp only [owes_act, trail, if_neg hj] at ho ha
    refine Or.inr ⟨?_, h j entry ho ha⟩
    intro hclear
    cases op <;> first | exact hclear | exact hj hclear.1

theorem reset_or_kept (h : (fun j => trail registryProtocol j (e::es)) =
    Function.update (fun j => trail registryProtocol j es) i {}) (j : ℕ) :
    trail registryProtocol j (e::es) = {} ∨
      trail registryProtocol j (e::es) = trail registryProtocol j es := by
  have hj := congrFun h j
  rcases eq_or_ne j i with rfl | hne
  · exact Or.inl (hj.trans (Function.update_self ..))
  · exact Or.inr (hj.trans (Function.update_of_ne hne ..))

theorem kept_reset (h : SignalKept entry es σ) (ht : (fun j => trail registryProtocol j (e::es)) =
      Function.update (fun j => trail registryProtocol j es) i {})
    (hi : (trail registryProtocol i es).refetch = none)
    (hsig : signal entry (e::es) = signal entry es) (hclear : ∀ j, ¬ Clears j entry e) :
    SignalKept entry (e::es) σ := by
  apply kept_frame hsig rfl hclear _ h
  intro j _ ho
  left
  have hne : j ≠ i := by
    rintro rfl
    exact absurd (hi.symm.trans ho) (by simp)
  have hj := congrFun ht j
  rw [Function.update_of_ne hne] at hj
  rwa [Owes, hj]

theorem asked_end (h : Asked es) (he : ∀ j, trail registryProtocol j (e::es) = {} ∨
    trail registryProtocol j (e::es) = trail registryProtocol j es)
    (hclear : ∀ i entry, ¬ Clears i entry e) : Asked (e::es) := by
  intro j entry ho ha
  rcases he j with hj | hj
  · rw [Owes, hj] at ho
    cases ho
  · rw [Owes, hj] at ho
    rw [hj] at ha
    exact Or.inr ⟨hclear j entry, h j entry ho ha⟩

end Frames

section Runs
variable {es : List (RegistryEvent config)} {σ : Shared} {i : ℕ} {op : Op} {ans : Ans op}
  {entry : Entry}

theorem kept_swap {e : Entry} {dirty : Bool} (h : SignalKept entry es σ)
    (hm : may (trail registryProtocol i es) (.swapDirty e)) (ha : dirty = σ.dirty e) :
    SignalKept entry (.act i (.swapDirty e) dirty::es) (σ.setDirty e false) := by
  by_cases he : e = entry ∧ dirty = true
  · obtain ⟨rfl, rfl⟩ := he
    simp [SignalKept, signal, Owes, trail, after, Shared.setDirty]
  · refine kept_frame ?_ ?_ (fun j hc => he hc.2) (fun j _ ho => Or.inl ?_) h
    · rw [signal, if_neg he]
    · by_cases hsame : e = entry
      · subst hsame
        have hfalse : σ.dirty e = false := by simpa [← ha] using he
        simp [Shared.setDirty, hfalse]
      · simp [Shared.setDirty, Ne.symm hsame]
    · rw [owes_act]
      split_ifs with hj
      · subst hj
        rw [Owes, hm.2.1] at ho
        cases ho
      · exact ho

theorem kept_store {e : Entry} {u : Unit} (h : SignalKept entry es σ)
    (hm : may (trail registryProtocol i es) (.storeDirty e)) :
    SignalKept entry (.act i (.storeDirty e) u::es) (σ.setDirty e true) := by
  by_cases he : e = entry
  · subst he
    simp [SignalKept, signal, Shared.setDirty]
  · refine kept_frame (by rw [signal, if_neg he]) (by simp [Shared.setDirty, Ne.symm he])
      (fun j hc => hc) (fun j _ ho => Or.inl ?_) h
    rw [owes_act]
    split_ifs with hj
    · subst hj
      exact absurd (Option.some.inj (hm.symm.trans ho)) he
    · exact ho

theorem kept_write {e : Entry} {fresh : Listing} {u : Unit} (h : SignalKept entry es σ)
    (hasked : Asked es) (hm : may (trail registryProtocol i es) (.writeTools e fresh)) :
    SignalKept entry (.act i (.writeTools e fresh) u::es) (σ.install e fresh) := by
  refine kept_frame rfl rfl (fun j hc => hc) (fun j _ ho => ?_) h
  by_cases hj : i = j
  · subst hj
    obtain rfl : e = entry := Option.some.inj (hm.1.symm.trans ho)
    exact Or.inr ⟨rfl, rfl, hasked i e ho (Or.inr ⟨fresh, hm.2.1⟩)⟩
  · left
    rw [owes_act, if_neg hj]
    exact ho

theorem kept_open {server : Text} {new : EntryOf server} (h : SignalKept entry es σ) :
    SignalKept entry (.act i (.serve server) (.ok new)::es) (σ.open new) := by
  by_cases he : new.1 = entry
  · subst he
    simp [SignalKept, signal, Shared.open]
  · refine kept_frame (by rw [signal, if_neg he]) (by simp [Shared.open, Ne.symm he])
      (fun j hc => hc) (fun j _ ho => Or.inl ?_) h
    rw [owes_act]
    split_ifs with hj
    · subst hj
      exact ho
    · exact ho

theorem kept_cancel {e : RegistryEvent config} (h : SignalKept entry es σ)
    (hk : DropsKeepSignal es σ e) (hc : Cancels i e) (hsig : signal entry (e::es) = signal entry es)
    (hclear : ∀ j, ¬ Clears j entry e)
    (hother : ∀ j, j ≠ i → trail registryProtocol j (e::es) = trail registryProtocol j es) :
    SignalKept entry (e::es) (σ.forget i) := by
  refine kept_frame hsig rfl hclear (fun j hd ho => Or.inl ?_) h
  by_cases hj : j = i
  · subst hj
    exact absurd (hd.symm.trans (hk j entry hc ho)) (by simp)
  · rw [Owes, hother j hj]
    exact ho

theorem kept_outside {e : Outside} {σ' : Shared} (h : SignalKept entry es σ)
    (ho : σ.outside e = some σ') : SignalKept entry (.outside e::es) σ' := by
  cases e <;> simp only [Shared.outside] at ho
  case change | drift =>
    cases ho
    exact kept_frame rfl rfl (fun j hc => hc) (fun j _ ho => Or.inl ho) h
  case handled e =>
    split_ifs at ho
    cases ho
    by_cases he : e = entry
    · subst he
      simp [SignalKept, signal, Shared.setDirty]
    · exact kept_frame (by rw [signal, if_neg he]) (by simp [Shared.setDirty, Ne.symm he])
        (fun j hc => hc) (fun j _ ho => Or.inl ho) h
  case snapshot =>
    split at ho
    · cases ho
      exact kept_frame rfl rfl (fun j hc => hc) (fun j _ ho => Or.inl ho) h
    · cases ho

theorem kept_act (h : SignalKept entry es σ) (hasked : Asked es)
    (hk : DropsKeepSignal es σ (.act i op ans)) (hm : may (trail registryProtocol i es) op)
    (ha : Answers i σ op ans) : SignalKept entry (.act i op ans::es) (effect i σ op ans) := by
  cases hop : isSignalling op with
  | false =>
    refine kept_frame (signal_frame hop) (congrFun (dirty_frame hop) entry) ?_
      (fun j _ ho => Or.inl ?_) h
    · rintro j hc
      cases op <;> first | exact hc | cases hop
    · rw [owes_act]
      split_ifs
      · rw [refetch_frame hop]
        exact ho
      · exact ho
  | true =>
    cases op <;> first | (cases hop; done) | skip
    case swapDirty e => exact kept_swap h hm ha
    case storeDirty e => exact kept_store h hm
    case writeTools e fresh => exact kept_write h hasked hm
    case serve server =>
      cases ans with
      | ok new => exact kept_open h
      | error _ =>
        refine kept_frame rfl rfl (fun j hc => hc) (fun j _ ho => Or.inl ?_) h
        rw [owes_act]
        split_ifs <;> exact ho
    case abandon =>
      exact kept_cancel h hk rfl rfl (fun j hc => hc) fun j hj => by simp [trail, Ne.symm hj]

theorem run_keeps_signal {tools : Entry → List Tool} {τ : RegistrySystem config}
    (h : Run (Shared.initial tools) DropsKeepSignal es τ) :
    Asked es ∧ ∀ entry, SignalKept entry es τ.shared := by
  refine run_preserved (P := registryProtocol)
    (J := fun es σ => Asked es ∧ ∀ entry, SignalKept entry es σ) (obeys_serveCall config) ?_ h
  refine ⟨⟨(fun i entry ho => nomatch ho), fun entry => rfl⟩, fun es σ i r hJ hi => ?_,
    fun es σ i op ans σ' hJ hk hm hp => ?_, fun es σ i r reply hJ hpost => ?_,
    fun es σ i hJ hk => ?_, fun es σ e σ' hJ _ ho => ?_⟩
  · have ht := trail_spawn registryProtocol i r es
    exact ⟨asked_end hJ.1 (reset_or_kept ht) fun j entry hc => hc,
      fun entry => kept_reset (hJ.2 entry) ht (by rw [hi]) rfl fun j hc => hc⟩
  · rw [hp.2]
    exact ⟨asked_act hJ.1 hm, fun entry => kept_act (hJ.2 entry) hJ.1 hk hm hp.1⟩
  · have ht := trail_finish registryProtocol i r reply es
    exact ⟨asked_end hJ.1 (reset_or_kept ht) fun j entry hc => hc,
      fun entry => kept_reset (hJ.2 entry) ht hpost.clean.refetch rfl fun j hc => hc⟩
  · refine ⟨asked_end hJ.1 (reset_or_kept (trail_drop registryProtocol i es)) fun j entry hc => hc,
      fun entry => ?_⟩
    exact kept_cancel (hJ.2 entry) hk rfl rfl (fun j hc => hc) fun j hj => by
      simp [trail, Ne.symm hj]
  · refine ⟨asked_end hJ.1 (fun j => Or.inr rfl) fun j entry hc => hc, fun entry => ?_⟩
    exact kept_outside (hJ.2 entry) ho

end Runs

end Signals

/-- A run is safe exactly when every future it drops keeps its signal, and then
no notification is lost without a refetch. -/
theorem refresh_keeps_signal_exact (config : TomlConfig) (tools : Entry → List Tool)
    {es : List (RegistryEvent config)} {σ : RegistrySystem config}
    (h : Run (Shared.initial tools) Any es σ) :
    (SafeRun tools es ↔ Run (Shared.initial tools) DropsKeepSignal es σ) ∧
      (Run (Shared.initial tools) DropsKeepSignal es σ →
        ∀ entry, SignalKept entry es σ.shared) :=
  ⟨⟨drops_of_safe h, safe_of_drops⟩, fun hk => (run_keeps_signal hk).2⟩

def probeEntry : Entry := ⟨"s".toList, 0⟩

def notified : List (Choice (registryService probeConfig) Hint Outside) :=
  .spawn 0 (.connect "s".toList) :: acts probeConfig 0 17 ++ .outside (.snapshot 0) ::
    acts probeConfig 0 7 ++ [.finish 0, .outside (.change probeEntry []),
      .outside (.handled probeEntry)]

def refreshing : List (Choice (registryService probeConfig) Hint Outside) :=
  notified ++ .spawn 1 (.callTool "s".toList "a".toList none) :: acts probeConfig 1 8

def endangered (es : List (RegistryEvent probeConfig)) (σ : RegistrySystem probeConfig) : Bool :=
  (trail registryProtocol 1 es).refetch = some probeEntry && !σ.shared.dirty probeEntry &&
    (σ.shared.upstream probeEntry).pending = 0 &&
    (σ.shared.cached probeEntry).map (·.revision) = some 0 &&
    (σ.shared.upstream probeEntry).revision = 1 &&
    match σ.tasks 1 with
    | some (_, .act op _) => awaits op
    | _ => false

theorem refreshing_runs : ∃ es σ, Run (W := registryWorld) (V := registryService probeConfig)
    (Shared.initial probeTools) (fun _ _ _ => true = true) es σ ∧ endangered es σ = true :=
  playAll_reaches responder refreshing (by decide)

theorem unowed_of_few {config : TomlConfig} {es : List (RegistryEvent config)} {entry : Entry}
    (howes : ∀ i < 3, (trail registryProtocol i es).refetch ≠ some entry)
    (hfew : ∀ e ∈ es, e.task.all (· < 3) = true) (i : ℕ) : ¬ Owes es i entry := by
  intro hi
  by_cases hlt : i < 3
  · exact howes i hlt hi
  · have habsent : trail registryProtocol i es = {} := trail_absent registryProtocol fun e he hei => by
      have hless := hfew e he
      simp only [hei, Option.all_some, decide_eq_true_eq] at hless
      exact hlt hless
    rw [Owes, habsent] at hi
    cases hi

/-- A call is dropped while it waits for the list: the flag stays clear, no
notification is left, and the cached list is out of date. -/
theorem refresh_loses_signal : ∃ (es : List (RegistryEvent probeConfig))
    (σ : RegistrySystem probeConfig), Run (Shared.initial probeTools) Any es σ ∧
      ¬ SafeRun probeTools es ∧ σ.shared.dirty probeEntry = false ∧
      (σ.shared.upstream probeEntry).pending = 0 ∧
      (σ.shared.cached probeEntry).map (·.revision) = some 0 ∧
      (σ.shared.upstream probeEntry).revision = 1 := by
  obtain ⟨es, σ, hr, hgoal⟩ := refreshing_runs
  have hr : Run (Shared.initial probeTools) Any es σ := run_weaken (fun _ _ _ _ => trivial) hr
  simp only [endangered, Bool.and_eq_true, decide_eq_true_eq, Bool.not_eq_true'] at hgoal
  obtain ⟨⟨⟨⟨⟨howes, hdirty⟩, hpending⟩, hcached⟩, hrev⟩, hwaits⟩ := hgoal
  split at hwaits
  · rename_i hi
    have hs : Step σ (.drop 1) (σ.assign 1 none (σ.shared.forget 1)) := Step.drop hi hwaits
    refine ⟨.drop 1::es, _, Run.step hr trivial hs, fun hsafe => ?_, hdirty, hpending, hcached, hrev⟩
    have htrue := hsafe [] _ es σ _ 1 probeEntry rfl hr hs rfl howes
    exact absurd (hdirty.symm.trans htrue) (by simp)
  · cases hwaits

/-- The call is dropped after a second notification has set the flag again. -/
def renotified : List (Choice (registryService probeConfig) Hint Outside) :=
  refreshing ++ [.outside (.change probeEntry []), .outside (.handled probeEntry), .drop 1]

def keepsSignal (es : List (RegistryEvent probeConfig)) (σ : Shared) :
    RegistryEvent probeConfig → Bool
  | .drop i | .act i .abandon _ =>
    match (trail registryProtocol i es).refetch with
    | some entry => σ.dirty entry
    | none => true
  | _ => true

theorem keepsSignal_sound (es : List (RegistryEvent probeConfig)) (σ : Shared)
    (e : RegistryEvent probeConfig) (h : keepsSignal es σ e = true) : DropsKeepSignal es σ e := by
  intro i entry hc ho
  rw [Owes] at ho
  cases e with
  | act j op ans =>
    cases op <;> cases hc
    simpa [keepsSignal, ho] using h
  | drop j =>
    cases hc
    simpa [keepsSignal, ho] using h
  | spawn _ _ | finish _ _ _ | outside _ => cases hc

theorem renotified_runs : ∃ es σ, Run (W := registryWorld) (V := registryService probeConfig)
    (Shared.initial probeTools) (fun es σ e => keepsSignal es σ e = true) es σ ∧
      σ.shared.dirty probeEntry = true :=
  playAll_reaches responder renotified (by decide)

theorem refresh_keeps_signal_renotified : ∃ (es : List (RegistryEvent probeConfig))
    (σ : RegistrySystem probeConfig), Run (Shared.initial probeTools) Any es σ ∧
      SafeRun probeTools es ∧ σ.shared.dirty probeEntry = true ∧ SignalKept probeEntry es σ.shared := by
  obtain ⟨es, σ, hr, hdirty⟩ := renotified_runs
  have hk := run_weaken keepsSignal_sound hr
  have hany : Run (Shared.initial probeTools) Any es σ := run_weaken (fun _ _ _ _ => trivial) hr
  have h := refresh_keeps_signal_exact probeConfig probeTools hany
  exact ⟨es, σ, hany, h.1.mpr hk, hdirty, h.2 hk probeEntry⟩

end FaninMcp.CancellationSafety
