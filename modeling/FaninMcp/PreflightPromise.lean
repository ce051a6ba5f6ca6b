import FaninMcp.PreflightVerdict
import FaninMcp.DiscoveryAgreement

/-!
# What a check promises of the service

The preflight check and the service read the same configuration by separate
code. Against the inventories that the check saw, a tool is reported missing
exactly if the service neither lists it, nor has its schema, nor forwards a
call to it.
-/

set_option autoImplicit false

namespace FaninMcp.PreflightPromise
open Foundation.RustText Foundation.JsonText Foundation.AsyncPrograms FaninMcp.ConfigModel
  FaninMcp.ErrorModel FaninMcp.NamespaceResolver FaninMcp.ConfigValidation FaninMcp.NamespaceAcl
  FaninMcp.CapabilityCache FaninMcp.RegistryModel FaninMcp.RegistryWorld FaninMcp.RegistryProtocol
  FaninMcp.SingleFlight FaninMcp.CancellationSafety FaninMcp.MetaTools FaninMcp.MetaAcl
  FaninMcp.PermissionLayer FaninMcp.Discovery FaninMcp.DiscoveryAgreement FaninMcp.CheckRun
  FaninMcp.CacheFile FaninMcp.CacheRoundTrip FaninMcp.NoCredentialFlow FaninMcp.PreflightVerdict

section Service
variable {agg : Aggregator}

/-- Whatever the task has finished, it has served the tool or refused it. -/
structure Serves (served : Prop) (s t : Text) (i : ℕ) (es : List (MetaEvent agg)) : Prop where
  listed : ∀ request reply calls, Finished es i request reply calls → Lists s request →
    (Emits reply s t ↔ served)
  described : ∀ request reply calls, Finished es i request reply calls → AsksSchema s t request →
    (ReturnsSchema reply ↔ served)
  called : ∀ request reply calls object, Finished es i request reply calls →
    Invokes s t object request →
    (served → calls = [(s, t, some object)]) ∧ (¬ served → calls = [])

theorem serves_congr {p q : Prop} (h : p ↔ q) {s t : Text} {i : ℕ} {es : List (MetaEvent agg)}
    (hp : Serves p s t i es) : Serves q s t i es :=
  propext h ▸ hp

variable {config : TomlConfig} {selected : Text} {active : ActiveNamespace}

theorem serves_offered (hv : Valid config selected)
    (hnew : ActiveNamespace.new config selected = .ok active) {s t : Text}
    (hs : s ∈ config.servers) (ht : t ≠ []) {items : List Tool} {tools : Entry → List Tool} {i : ℕ}
    {es : List (MetaEvent (.withRegistry config active))}
    {σ : MetaSystem (.withRegistry config active)}
    (h : Run (Shared.initial tools) (Steadily s items i) es σ) :
    Serves (Offered active items s t) s t i es := by
  have hc := covers_of_valid hv hnew
  have hparse := parse_joined (hv.names s hs).1 (hv.names s hs).2 ht
  constructor
  · rintro request reply calls ⟨later, earlier, hes, rfl⟩
    exact finished_under (list_under hc hv.servers hs) h hes
  · rintro request reply calls ⟨later, earlier, hes, rfl⟩
    exact finished_under (schema_under hv.servers hs hparse) h hes
  · rintro request reply calls object ⟨later, earlier, hes, rfl⟩
    exact finished_under (invoke_under hv.servers hs hparse object) h hes

end Service

section Expectations
variable {config : TomlConfig} {selected : Text} {ns : ActiveNamespace}

theorem allowed_of_expected (hnew : ActiveNamespace.new config selected = .ok ns) {s t : Text}
    (hvisible : Visible config (selectedNamespace selected) s)
    (hexpected : Expected config (selectedNamespace selected) s t) :
    ns.isToolAllowed s t = true := by
  obtain ⟨acl, hres, rfl⟩ := new_resolved hnew
  exact (composed_permitted (resolveNamespace_composes hres) _ s t).mpr ⟨hvisible, hexpected.2⟩

theorem offered_of_expected (hnew : ActiveNamespace.new config selected = .ok ns) {s t : Text}
    (hvisible : Visible config (selectedNamespace selected) s)
    (hexpected : Expected config (selectedNamespace selected) s t) (items : List Tool) :
    Offered ns items s t ↔ t ∈ items.map Tool.name := by
  have hallowed := allowed_of_expected hnew hvisible hexpected
  rw [Offered, List.mem_map]
  constructor
  · exact fun hoffered => hoffered.2.2
  · exact fun hin => ⟨isToolAllowed_server hallowed, hallowed, hin⟩

theorem toolMissing_inj {s t t' : Text} (h : toolMissing s t = toolMissing s t') : t = t' :=
  Option.some.inj (congrArg CheckError.tool h)

theorem reported_missing (hnew : ActiveNamespace.new config selected = .ok ns)
    {asked : List Asked} (hdistinct : (asked.map Prod.fst).Nodup)
    (hblame : ∀ one ∈ asked, Blames config one.1 one.2) {s : Text} {items : List Tool}
    (hone : (s, .ok items) ∈ asked) (t : Text) :
    toolMissing s t ∈ (recordAll config ns asked (.new ns.name)).concluded.errors ↔
      Expected config (selectedNamespace selected) s t ∧ t ∉ items.map Tool.name := by
  have habout : toolMissing s t ∈ (recordAll config ns asked (.new ns.name)).concluded.errors ↔
      toolMissing s t ∈ errorsOf ns (s, .ok items) := by
    rw [← recorded_about hdistinct hblame hone, errorsAbout, List.mem_filter]
    exact ⟨fun h => ⟨h, decide_eq_true rfl⟩, fun h => h.1⟩
  rw [habout, errorsOf, ← mem_missingTools hnew, List.mem_map]
  constructor
  · rintro ⟨name, hname, heq⟩
    exact toolMissing_inj heq ▸ hname
  · exact fun hmissing => ⟨t, hmissing, rfl⟩

end Expectations

section Promise
variable {host : Host} {args : CheckArgs} {config : TomlConfig} {State : Type}
  {R : Semantics registryOps State} {s s' : State} {t : List (Exchange registryOps)}
  {out : Emitted × Files}

theorem checked_visible
    (hfilter : ∀ server, args.serverFilter = some server →
      Visible config (selectedNamespace args.namespaceArg) server) {x : Text}
    (h : Checked config (selectedNamespace args.namespaceArg) args.serverFilter x) :
    Visible config (selectedNamespace args.namespaceArg) x := by
  cases hf : args.serverFilter with
  | none => simpa [Checked, hf] using h
  | some server =>
    obtain rfl : x = server := by simpa [Checked, hf] using h
    exact hfilter x hf

/-- A check that succeeds has had an inventory of every server it was to check,
with every expected tool. Of every server whose inventory came, succeeding or
not, and of every tool that is expected of it: any number of requests to the
service, in any interleaving and against that inventory, list the tool, get its
schema and are forwarded to it exactly if the check does not report it missing. -/
theorem check_promises (hload : loadConfig host args = .ok config)
    (hrun : Runs R (run host args) s t out s')
    (hfilter : ∀ server, args.serverFilter = some server →
      Visible config (selectedNamespace args.namespaceArg) server) :
    ∃ ns servers outcomes result,
      ActiveNamespace.new config args.namespaceArg = .ok ns ∧ servers.Nodup ∧
      (∀ x, x ∈ servers ↔
        Checked config (selectedNamespace args.namespaceArg) args.serverFilter x) ∧
      Runs R (inventories config servers) s t outcomes s' ∧
      out.1 = emit result args.json ∧
      (out.1.success = true → ∀ server ∈ servers, ∃ items,
        (server, .ok items) ∈ servers.zip outcomes ∧
        ∀ tool, Expected config (selectedNamespace args.namespaceArg) server tool →
          tool ∈ items.map Tool.name ∧ toolMissing server tool ∉ result.errors) ∧
      ∀ server items tool, (server, .ok items) ∈ servers.zip outcomes →
        Expected config (selectedNamespace args.namespaceArg) server tool → tool ≠ [] →
        ∀ (tools : Entry → List Tool) (i : ℕ) (es : List (MetaEvent (.withRegistry config ns)))
          (σ : MetaSystem (.withRegistry config ns)),
          Run (Shared.initial tools) (Steadily server items i) es σ →
          Serves (toolMissing server tool ∉ result.errors) server tool i es := by
  have hv := loadConfig_valid hload
  obtain ⟨ns, servers, outcomes, hnew, hnodup, hmem, hasked, hblame, rfl⟩ :=
    run_recorded hload hrun hfilter
  have hdistinct := asked_distinct hnodup hblame
  have hblames : ∀ one ∈ servers.zip outcomes, Blames config one.1 one.2 :=
    fun one hone => List.forall₂_zip hblame hone
  refine ⟨ns, servers, outcomes, _, hnew, hnodup, hmem, hasked, rfl, ?_, ?_⟩
  · intro hsuccess server hin
    have hhealthy := (recorded_ok hnew).mp (emit_success hsuccess)
    obtain ⟨one, hone, rfl⟩ : ∃ one ∈ servers.zip outcomes, one.1 = server := by
      rw [← List.mem_map, List.map_fst_zip hblame.length_eq.le]
      exact hin
    obtain ⟨server, error | items⟩ := one
    · exact (hhealthy _ hone).elim
    · refine ⟨items, hone, fun tool hexpected => ?_⟩
      have hpresent := hhealthy _ hone tool hexpected
      exact ⟨hpresent, fun hmissing =>
        ((reported_missing hnew hdistinct hblames hone tool).mp hmissing).2 hpresent⟩
  · intro server items tool hone hexpected hne tools i es σ hr
    have hvisible := checked_visible hfilter ((hmem server).mp (List.of_mem_zip hone).1)
    have hconfigured := covers_of_valid hv hnew server
      (isToolAllowed_server (allowed_of_expected hnew hvisible hexpected))
    refine serves_congr ?_ (serves_offered hv hnew hconfigured hne hr)
    rw [offered_of_expected hnew hvisible hexpected,
      reported_missing hnew hdistinct hblames hone tool]
    simp [hexpected]

end Promise

section Probe

def probed : TomlConfig where
  servers := List.toAList [⟨"s".toList, { command := some "c".toList }⟩]
  namespaces := List.toAList [⟨"default".toList, {
    servers := ["s".toList]
    tools := List.toAList [⟨"s".toList, ["a".toList]⟩] }⟩]

def probedNamespace : ActiveNamespace :=
  ⟨"default".toList, {"s".toList}, List.toAList [⟨"s".toList, {"a".toList}⟩]⟩

def probedHost : Host where
  iteration := .ascending
  fromStr _ := .ok probed
  readToString _ := .ok []
  serde := serdeJson
  disk := emptyDisk
  now := []

def checkS : CheckArgs where
  namespaceArg := []
  configPath := some "fanin.toml".toList
  serverFilter := some "s".toList
  refreshCache := false
  noCacheWrite := true
  json := false

theorem probed_new : ActiveNamespace.new probed [] = .ok probedNamespace := rfl

theorem probed_valid : Valid probed [] :=
  valid_alone rfl rfl ⟨by decide, List.all_eq_true.mp (by decide)⟩
    ⟨by decide, Or.inl ⟨by decide, by decide⟩⟩ rfl ⟨_, rfl, by decide, by decide⟩

def listing : (op : Op) → Option (Ans op)
  | .guardEntry _ => some (0 : ℕ)
  | .entriesGet _ => some none
  | .spawnTransport _ => some (.ok ())
  | .serve server => some (.ok ⟨⟨server, 0⟩, rfl⟩)
  | .listReply _ => some (.ok ⟨gateInventory, 0⟩)
  | .loadDirty _ | .swapDirty _ | .poll | .cancelled => some false
  | .readTools _ => some ⟨gateInventory, 0⟩
  | .acquire _ | .release _ | .entriesInsert _ _ | .connectBegin _ | .connectEnd _
  | .newEntry _ _ | .listRequest _ | .registerSecret _ => some ()
  | _ => none

theorem probed_listed : (evaluate listing (inventories probed ["s".toList])).map Prod.snd =
    some [.ok gateInventory] := rfl

abbrev probedGate : Aggregator := .withRegistry probed probedNamespace

def describing : List (Choice (metaService probedGate) Hint Outside) :=
  .spawn 0 schemaRequest :: List.replicate 17 (.act 0 .well) ++ .outside (.snapshot 0) ::
    List.replicate 11 (.act 0 .well) ++ [.finish 0]

def steady : MetaEvent probedGate → Bool
  | .act i op ans => steadily (.act i op ans)
  | _ => true

theorem steady_sound (i : ℕ) (es : List (MetaEvent probedGate)) (σ : Shared)
    (e : MetaEvent probedGate) (h : steady e = true) :
    Steadily "s".toList gateInventory i es σ e := by
  constructor
  · rintro op ans rfl
    exact (steadily_sound i [] σ (.act i op ans) h).own op ans rfl
  · rintro j entry l rfl
    exact (steadily_sound i [] σ (.act j (.listReply entry) (.ok l)) h).shown j entry l rfl

def describes : List (MetaEvent probedGate) → Bool
  | .finish i request _::_ => i = 0 && asksProbe request
  | _ => false

theorem describes_sound {es : List (MetaEvent probedGate)} (h : describes es = true) :
    ∃ request reply calls, Finished es 0 request reply calls ∧
      AsksSchema "s".toList "a".toList request := by
  rw [describes.eq_def] at h
  split at h
  · rename_i i request reply rest
    simp only [asksProbe, Bool.and_eq_true, decide_eq_true_eq] at h
    obtain ⟨rfl, hname, hasked⟩ := h
    exact ⟨request, reply, _, ⟨[], rest, rfl, rfl⟩, hname, hasked⟩
  · cases h

theorem describing_runs : ∃ es σ, Run (W := registryWorld) (V := metaService probedGate)
    (Shared.initial probeTools) (fun _ _ e => steady e = true) es σ ∧ describes es = true :=
  playAll_reaches responder describing (by decide)

theorem probed_expects (tool : Text) :
    Expected probed (selectedNamespace checkS.namespaceArg) "s".toList tool ↔
      tool = "a".toList := by
  rw [← @mem_explicitTools _ checkS.namespaceArg _ probed_new, explicitTools,
    Finset.mem_sort]
  exact Finset.mem_singleton

theorem probed_healthy : ∀ one ∈ ["s".toList].zip [Except.ok gateInventory],
    Healthy probed (selectedNamespace checkS.namespaceArg) one.1 one.2 := by
  intro one hone
  obtain rfl := List.mem_singleton.mp hone
  intro tool hexpected
  exact List.mem_singleton.mpr ((probed_expects tool).mp hexpected)

theorem check_promises_probe :
    ∃ t out, Runs (answering listing) (run probedHost checkS) () t out () ∧
      out.1.success = true ∧ ∃ (es : List (MetaEvent probedGate)) (σ : MetaSystem probedGate)
        (request : Request) (reply : Reply) (calls : List Forwarded),
        Run (Shared.initial probeTools) (Steadily "s".toList gateInventory 0) es σ ∧
        Finished es 0 request reply calls ∧
        AsksSchema "s".toList "a".toList request ∧ ReturnsSchema reply := by
  have hloads : Loads probedHost checkS probed := fun _ _ => ⟨[], rfl, rfl⟩
  have hvalid : validate probedHost.iteration probed checkS.namespaceArg = .ok () :=
    (validate_ok _).mpr probed_valid
  have hload : loadConfig probedHost checkS = .ok probed := by
    rw [loadConfig_file rfl hloads, hvalid]
  have hplan : plan probedHost checkS = .ok ⟨probed, probedNamespace, ["s".toList]⟩ := by
    rw [plan, hload]
    rfl
  obtain ⟨t, hasked⟩ := runs_evaluated.mpr probed_listed
  have hrun := (run_planned hplan).mpr ⟨_, hasked, rfl⟩
  have hvisible : Visible probed (selectedNamespace checkS.namespaceArg) "s".toList :=
    (@visible_iff checkS _ probedNamespace probed_new "s".toList).mp rfl
  obtain ⟨es, σ, hr, hdescribes⟩ := describing_runs
  obtain ⟨request, reply, calls, hfinished, hasks⟩ := describes_sound hdescribes
  obtain ⟨ns, servers, outcomes, result, hnew, hnodup, hmem, hinventories, -, hgreen, hpromise⟩ :=
    check_promises hload hrun fun server hserver => by
      obtain rfl := Option.some.inj hserver
      exact hvisible
  obtain rfl : probedNamespace = ns := Except.ok.inj hnew
  obtain rfl : servers = ["s".toList] := List.perm_singleton.mp
    ((List.perm_ext_iff_of_nodup hnodup (List.nodup_singleton _)).mpr fun x => by
      rw [hmem x, List.mem_singleton]
      rfl)
  obtain rfl : [.ok gateInventory] = outcomes :=
    Option.some.inj (probed_listed.symm.trans (runs_evaluated.mp ⟨t, hinventories⟩))
  have hprobed := run_weaken (steady_sound 0) hr
  have hserves := hpromise "s".toList gateInventory "a".toList (List.mem_singleton_self _)
    ((probed_expects _).mpr rfl) (by decide) probeTools 0 es σ hprobed
  have hsuccess : (recordAll probed probedNamespace (["s".toList].zip [.ok gateInventory])
      (.new probedNamespace.name)).concluded.ok = true :=
    (@recorded_ok _ checkS.namespaceArg _ _ probed_new).mpr probed_healthy
  obtain ⟨items, -, hpresent⟩ := hgreen hsuccess "s".toList (List.mem_singleton_self _)
  exact ⟨t, _, hrun, hsuccess, es, σ, request, reply, calls, hprobed, hfinished, hasks,
    (hserves.described request reply calls hfinished hasks).mpr
      (hpresent "a".toList ((probed_expects _).mpr rfl)).2⟩

end Probe

end FaninMcp.PreflightPromise
