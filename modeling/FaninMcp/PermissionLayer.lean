import FaninMcp.MetaAcl
import FaninMcp.CancellationSafety

/-!
# The permission layer over whole runs

Any number of requests, in any interleaving and against any upstreams. What a
handler obeys by itself holds of every event of a run; that a forwarded tool is
in the cache when its request is sent does not, since another task may replace
the list in between.
-/

set_option autoImplicit false

namespace FaninMcp.PermissionLayer
open Foundation.RustText Foundation.JsonText Foundation.AsyncPrograms FaninMcp.ConfigModel
  FaninMcp.ErrorModel FaninMcp.NamespaceResolver FaninMcp.ConfigValidation FaninMcp.NamespaceAcl
  FaninMcp.RegistryModel FaninMcp.RegistryWorld FaninMcp.SingleFlight FaninMcp.CancellationSafety
  FaninMcp.MetaTools FaninMcp.MetaAcl

abbrev MetaEvent (agg : Aggregator) := Event registryWorld (metaService agg)

abbrev MetaSystem (agg : Aggregator) := System registryWorld (metaService agg)

theorem covers_of_valid {config : TomlConfig} {selected : Text} {active : ActiveNamespace}
    (hv : Valid config selected) (hnew : ActiveNamespace.new config selected = .ok active) :
    Covers config active := by
  obtain ⟨acl, hacl, hservers, _⟩ := hv.namespaces _ hv.active
  simp only [ActiveNamespace.new, hacl, Except.ok.injEq] at hnew
  subst hnew
  intro server hs
  exact hservers server (of_decide_eq_true hs)

section Runs
variable {agg : Aggregator} {active : ActiveNamespace} {start : Shared}
  {K : List (MetaEvent agg) → Shared → MetaEvent agg → Prop}
  {es : List (MetaEvent agg)} {σ : MetaSystem agg}

theorem read_of_trail {i : ℕ} {entry : Entry} {l : Listing}
    (h : trail (aclProtocol active) i es = some (entry, l)) :
    ∃ middle before, es = middle ++ .act i (.readTools entry) l::before ∧
      ∀ e ∈ middle, e.task = some i → ∃ op ans, e = .act i op ans := by
  induction es with
  | nil => cases h
  | cons e es ih =>
    have hextend : trail (aclProtocol active) i es = some (entry, l) →
        (e.task = some i → ∃ op ans, e = .act i op ans) →
        ∃ middle before, e::es = middle ++ .act i (.readTools entry) l::before ∧
          ∀ e ∈ middle, e.task = some i → ∃ op ans, e = .act i op ans := by
      intro ht he
      obtain ⟨middle, before, rfl, hm⟩ := ih ht
      exact ⟨e::middle, before, rfl, List.forall_mem_cons.mpr ⟨he, hm⟩⟩
    cases e with
    | outside _ => exact hextend h (fun he => by cases he)
    | spawn j _ | finish j _ _ | drop j =>
      by_cases hj : j = i
      · subst hj
        simp [trail] at h
      · simp only [trail, if_neg hj] at h
        exact hextend h (fun he => absurd (Option.some.inj he) hj)
    | act j op ans =>
      by_cases hj : j = i
      · subst hj
        simp only [trail, if_true] at h
        cases op <;> first | exact hextend h (fun _ => ⟨_, _, rfl⟩) | skip
        case readTools other =>
          cases h
          exact ⟨[], es, rfl, by simp⟩
      · simp only [trail, if_neg hj] at h
        exact hextend h (fun he => absurd (Option.some.inj he) hj)

/-- The request has read a list with the tool from the entry's cache. -/
def ReadBefore (start : Shared) (K : List (MetaEvent agg) → Shared → MetaEvent agg → Prop)
    (es : List (MetaEvent agg)) (i : ℕ) (entry : Entry) (tool : Text) : Prop :=
  ∃ middle l before τ, es = middle ++ .act i (.readTools entry) l::before ∧
    (∀ e ∈ middle, e.task = some i → ∃ op ans, e = .act i op ans) ∧ Run start K before τ ∧
    τ.shared.cached entry = some l ∧ ∃ found ∈ l.tools, found.name = tool

theorem read_before (h : Run start K es σ) {i : ℕ} {entry : Entry} {tool : Text} {l : Listing}
    (hread : trail (aclProtocol active) i es = some (entry, l))
    (hfound : ∃ found ∈ l.tools, found.name = tool) : ReadBefore start K es i entry tool := by
  obtain ⟨middle, before, hes, hmiddle⟩ := read_of_trail hread
  obtain ⟨τ, τ', hτ, _, hs⟩ := run_event h hes
  cases hs with
  | act _ hp => exact ⟨middle, l, before, τ, hes, hmiddle, hτ, hp.1, hfound⟩

end Runs

/-- Over every run: operations are only ever for visible servers; a call is
forwarded only for an allowed tool of the inventory the request has read from
the cache; rows and schemas are of allowed tools; and a request that is denied
performs no operation at all. -/
theorem permission_layer (config : TomlConfig) (selected : Text) (hv : Valid config selected)
    (active : ActiveNamespace) (hnew : ActiveNamespace.new config selected = .ok active)
    (start : Shared)
    (K : List (MetaEvent (.withRegistry config active)) → Shared →
      MetaEvent (.withRegistry config active) → Prop)
    {es : List (MetaEvent (.withRegistry config active))}
    {σ : MetaSystem (.withRegistry config active)} (h : Run start K es σ) :
    (∀ later earlier i op ans server, es = later ++ .act i op ans::earlier →
      subject op = some server → active.isServerAllowed server = true) ∧
    (∀ later earlier i entry tool arguments u,
      es = later ++ .act i (.callRequest entry tool arguments) u::earlier →
      active.isToolAllowed entry.server tool = true ∧ ReadBefore start K earlier i entry tool) ∧
    (∀ later earlier i request reply, es = later ++ .finish i request reply::earlier →
      Reply.Allowed active reply) ∧
    ∀ later earlier i request reply, es = later ++ .finish i request reply::earlier →
      Reply.Denied reply → ∃ middle before, earlier = middle ++ .spawn i request::before ∧
        ∀ e ∈ middle, e.task ≠ some i := by
  have hc := covers_of_valid hv hnew
  have hmay : ∀ later earlier i op ans, es = later ++ .act i op ans::earlier →
      ∃ τ, Run start K earlier τ ∧ aclMay active (trail (aclProtocol active) i earlier) op := by
    intro later earlier i op ans hes
    obtain ⟨τ, τ', hτ, _, hs⟩ := run_event h hes
    exact ⟨τ, hτ, may_of_step (dispatch_obeys hc) hτ hs⟩
  refine ⟨?_, ?_, ?_, ?_⟩
  · intro later earlier i op ans server hes hsub
    obtain ⟨τ, _, hm⟩ := hmay later earlier i op ans hes
    exact hm.1 server hsub
  · intro later earlier i entry tool arguments u hes
    obtain ⟨τ, hτ, hm⟩ := hmay later earlier i _ u hes
    obtain ⟨hallowed, l, hread, hfound⟩ := hm.2 entry tool arguments rfl
    exact ⟨hallowed, read_before hτ hread hfound⟩
  · intro later earlier i request reply hes
    obtain ⟨τ, τ', hτ, _, hs⟩ := run_event h hes
    exact post_of_step (dispatch_obeys hc) hτ hs
  · intro later earlier i request reply hes hd
    obtain ⟨τ, τ', hτ, _, hs⟩ := run_event h hes
    have hacted := post_of_step (dispatch_denies hc) hτ hs hd
    cases hs with
    | finish hi => exact untouched hτ hi hacted

section Gate

def gateConfig : TomlConfig where
  servers := List.toAList [⟨"s".toList, { command := some "c".toList }⟩]
  namespaces := List.toAList [⟨"default".toList, { servers := ["s".toList] }⟩]

def gateActive : ActiveNamespace := ⟨"default".toList, {"s".toList}, ∅⟩

abbrev gate : Aggregator := .withRegistry gateConfig gateActive

theorem gate_valid : Valid gateConfig [] :=
  valid_alone rfl rfl ⟨by decide, List.all_eq_true.mp (by decide)⟩ ⟨by decide, Or.inl (by decide)⟩
    rfl ⟨_, rfl, by decide, by decide⟩

def listRequest : Request := ⟨"list_tools".toList, some [("server".toList, .str "s".toList)]⟩

def invokeRequest : Request :=
  ⟨"invoke_tool".toList, some [("arguments".toList, .obj []), ("name".toList, .str "s__a".toList)]⟩

/-- `n` steps of a task in which things go well. -/
def goes (i n : ℕ) : List (Choice (metaService gate) Hint Outside) := List.replicate n (.act i .well)

/-- The server is connected, and a request to invoke its tool has read its list. -/
def reading : List (Choice (metaService gate) Hint Outside) :=
  .spawn 0 listRequest :: goes 0 17 ++ .outside (.snapshot 0) :: goes 0 11 ++
    .finish 0 :: .spawn 1 invokeRequest :: goes 1 12

def withdrawing : List (Choice (metaService gate) Hint Outside) :=
  reading ++ [.outside (.change probeEntry []), .outside (.handled probeEntry)] ++
    .spawn 2 listRequest :: goes 2 7 ++ .outside (.snapshot 2) :: goes 2 8 ++ [.finish 2]

def forwarding (σ : MetaSystem gate) : Bool :=
  match σ.tasks 1 with
  | some (_, .act (Op.callRequest entry tool _) _) => entry = probeEntry && tool = "a".toList
  | _ => false

theorem forwarding_step {σ : MetaSystem gate} (h : forwarding σ = true) :
    ∃ (arguments : Option JsonObject) (σ' : MetaSystem gate),
      Step σ (.act 1 (Op.callRequest probeEntry "a".toList arguments) ()) σ' ∧
        σ'.shared = σ.shared := by
  rw [forwarding] at h
  split at h
  · rename_i entry tool arguments _ hi
    simp only [Bool.and_eq_true, decide_eq_true_eq] at h
    obtain ⟨rfl, rfl⟩ := h
    exact ⟨arguments, _, Step.act hi ⟨trivial, rfl⟩, rfl⟩
  · cases h

def withdrawn (σ : Shared) : Bool :=
  match σ.cached probeEntry with
  | some l => l.tools.all fun found => found.name ≠ "a".toList
  | none => false

theorem withdrawing_runs : ∃ es σ, Run (W := registryWorld) (V := metaService gate)
    (Shared.initial probeTools) (fun _ _ _ => true = true) es σ ∧
      (forwarding σ && withdrawn σ.shared) = true :=
  playAll_reaches responder withdrawing (by decide)

/-- A call is forwarded for a tool that is no longer in the cached inventory. -/
theorem forwarded_tool_withdrawn : ∃ (es : List (MetaEvent gate)) (σ : MetaSystem gate)
    (arguments : Option JsonObject), Run (Shared.initial probeTools) (fun _ _ _ => True)
      (.act 1 (Op.callRequest probeEntry "a".toList arguments) ()::es) σ ∧
      ∃ l, σ.shared.cached probeEntry = some l ∧ ∀ found ∈ l.tools, found.name ≠ "a".toList := by
  obtain ⟨es, σ, hr, hgoal⟩ := withdrawing_runs
  obtain ⟨hforward, hgone⟩ := Bool.and_eq_true_iff.mp hgoal
  obtain ⟨arguments, σ', hs, hsame⟩ := forwarding_step hforward
  refine ⟨es, σ', arguments, Run.step (run_weaken (fun _ _ _ _ => trivial) hr) trivial hs, ?_⟩
  rw [hsame]
  rw [withdrawn] at hgone
  split at hgone
  · rename_i l hl
    exact ⟨l, hl, by simpa using hgone⟩
  · cases hgone

theorem reading_runs : ∃ es σ, Run (W := registryWorld) (V := metaService gate)
    (Shared.initial probeTools) (fun _ _ _ => true = true) es σ ∧ forwarding σ = true :=
  playAll_reaches responder reading (by decide)

theorem permission_layer_gate : ∃ (es : List (MetaEvent gate)) (σ : MetaSystem gate)
    (arguments : Option JsonObject),
    Run (W := registryWorld) (V := metaService gate) (Shared.initial probeTools)
      (fun _ _ _ => True) (.act 1 (Op.callRequest probeEntry "a".toList arguments) ()::es) σ ∧
    (∀ later earlier i op ans server,
      (.act 1 (Op.callRequest probeEntry "a".toList arguments) ()::es : List (MetaEvent gate)) =
        later ++ .act i op ans::earlier →
      subject op = some server → gateActive.isServerAllowed server = true) ∧
    gateActive.isToolAllowed probeEntry.server "a".toList = true ∧
    ReadBefore (Shared.initial probeTools) (fun _ _ _ => True) es 1 probeEntry "a".toList := by
  obtain ⟨es, σ, hr, hforward⟩ := reading_runs
  obtain ⟨arguments, σ', hs, _⟩ := forwarding_step hforward
  have hrun := Run.step (run_weaken (fun _ _ _ _ => trivial) hr) trivial hs
  have h := permission_layer gateConfig [] gate_valid gateActive rfl (Shared.initial probeTools)
    (fun _ _ _ => True) hrun
  exact ⟨es, σ', arguments, hrun, h.1, h.2.1 [] es 1 probeEntry "a".toList arguments () rfl⟩

end Gate

end FaninMcp.PermissionLayer
