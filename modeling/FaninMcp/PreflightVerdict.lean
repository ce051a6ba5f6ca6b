import FaninMcp.NoCredentialFlow
import FaninMcp.ReportLines

/-!
# The verdict of a check

What a check reports is judged by the inheritance graph and by what the
inventories came to: a server is healthy if its inventory came and has every
tool that the namespaces filter it by. Of the errors, those that name a server
are exactly its own.
-/

set_option autoImplicit false

namespace FaninMcp.PreflightVerdict
open Foundation.RustText Foundation.AsyncPrograms FaninMcp.ConfigModel FaninMcp.ErrorModel
  FaninMcp.NamespaceResolver FaninMcp.ConfigValidation FaninMcp.NamespaceAcl
  FaninMcp.CapabilityCache FaninMcp.RegistryModel FaninMcp.RegistryProtocol FaninMcp.CheckRun
  FaninMcp.NoCredentialFlow FaninMcp.ReportLines

section Expectations
variable (config : TomlConfig) (n : Text)

/-- Some reachable namespace filters the server, and all that do list the tool. -/
def Expected (s tool : Text) : Prop :=
  (∃ m, Reaches config n m ∧ (toolEntry config m s).isSome) ∧ Permitted config n s tool

def Healthy (s : Text) : Outcome (List Tool) → Prop
  | .ok tools => ∀ name, Expected config n s name → name ∈ tools.map Tool.name
  | .error _ => False

def Checked (filter : Option Text) (s : Text) : Prop :=
  filter.elim (Visible config n s) (s = ·)

def errorsAbout (result : CheckResult) (s : Text) : List CheckError :=
  result.errors.filter fun e => decide (e.server = some s)

/-- The names that are listed of an inventory: its tools, each once and in order. -/
def Named : Outcome (List Tool) → List Text → Prop
  | .ok tools, names => names.Pairwise (· ≤ ·) ∧ names.Nodup ∧
    ∀ name, name ∈ names ↔ name ∈ tools.map Tool.name
  | .error _, names => names = []

structure Verdict (asked : List Asked) (result : CheckResult) : Prop where
  ok : result.ok = true ↔ ∀ one ∈ asked, Healthy config n one.1 one.2
  servers : result.servers.map CheckServer.name = asked.map Prod.fst
  tools : List.Forall₂ (fun one entry => Named one.2 entry.tools) asked result.servers
  statuses : ∀ entry ∈ result.servers,
    (entry.status = "ok".toList ∨ entry.status = "error".toList) ∧
      (entry.status = "ok".toList ↔ ∀ e ∈ result.errors, e.server ≠ some entry.name)
  named : ∀ e ∈ result.errors, ∃ one ∈ asked, e.server = some one.1
  failed : ∀ s error, (s, .error error) ∈ asked →
    errorsAbout result s = [mapToolError error] ∧
      (mapToolError error).code ≠ "configured_tool_missing".toList
  missing : ∀ s tools, (s, .ok tools) ∈ asked → ∃ names : List Text, names.Nodup ∧
    (∀ name, name ∈ names ↔ Expected config n s name ∧ name ∉ tools.map Tool.name) ∧
      errorsAbout result s = names.map (toolMissing s)

end Expectations

section Filters
variable {config : TomlConfig} {selected : Text} {ns : ActiveNamespace}

theorem new_resolved (h : ActiveNamespace.new config selected = .ok ns) :
    ∃ acl, resolveNamespace config (selectedNamespace selected) = .ok acl ∧
      ns = ⟨selectedNamespace selected, acl.servers, acl.tools⟩ := by
  simp only [ActiveNamespace.new] at h
  cases hres : resolveNamespace config (selectedNamespace selected) with
  | error e => simp [hres] at h
  | ok acl =>
    rw [hres] at h
    exact ⟨acl, rfl, (Except.ok.inj h).symm⟩

/-- The tools a server is filtered by are the expected ones, wherever in the
graph the filters are. -/
theorem mem_explicitTools (h : ActiveNamespace.new config selected = .ok ns) (s tool : Text) :
    tool ∈ explicitTools ns s ↔ Expected config (selectedNamespace selected) s tool := by
  obtain ⟨acl, hres, rfl⟩ := new_resolved h
  have hfilters := (resolveNamespace_composes hres).filters
  rw [explicitTools, Finset.mem_sort]
  cases hf : acl.tools.lookup s with
  | none =>
    have habsent := hfilters.absent s hf
    simp only [Option.getD_none, Finset.notMem_empty, false_iff]
    rintro ⟨⟨m, hm, hentry⟩, -⟩
    rw [habsent m hm] at hentry
    cases hentry
  | some tools =>
    obtain ⟨hsome, hmem⟩ := hfilters.present s tools hf
    rw [Option.getD_some, hmem]
    exact ⟨fun hall => ⟨hsome, hall⟩, fun hexpected => hexpected.2⟩

theorem cached_names (tools : List Tool) :
    (tools.map cachedTool).map CachedTool.name = tools.map Tool.name := by
  rw [List.map_map]
  rfl

theorem mem_missingTools (h : ActiveNamespace.new config selected = .ok ns) (s : Text)
    (tools : List Tool) (name : Text) :
    name ∈ missingTools ns s (tools.map cachedTool) ↔
      Expected config (selectedNamespace selected) s name ∧ name ∉ tools.map Tool.name := by
  rw [missingTools, cached_names, List.mem_filter, mem_explicitTools h, decide_eq_true_eq]

theorem missingTools_nodup (ns : ActiveNamespace) (s : Text) (tools : List CachedTool) :
    (missingTools ns s tools).Nodup :=
  (Finset.sort_nodup _ _).filter _

theorem errorsOf_nil (h : ActiveNamespace.new config selected = .ok ns) (one : Asked) :
    errorsOf ns one = [] ↔ Healthy config (selectedNamespace selected) one.1 one.2 := by
  obtain ⟨s, error | tools⟩ := one
  · simp [errorsOf, Healthy]
  · rw [errorsOf, List.map_eq_nil_iff, List.eq_nil_iff_forall_not_mem]
    simp only [mem_missingTools h, Healthy, not_and, not_not]

theorem checkedOf_name (ns : ActiveNamespace) (one : Asked) : (checkedOf ns one).name = one.1 := by
  obtain ⟨s, error | tools⟩ := one <;> rfl

theorem checkedOf_status (ns : ActiveNamespace) (one : Asked) :
    (checkedOf ns one).status =
      if (errorsOf ns one).isEmpty then "ok".toList else "error".toList := by
  obtain ⟨s, error | tools⟩ := one
  · rfl
  · simp [checkedOf, errorsOf]

theorem checkedOf_tools (ns : ActiveNamespace) (one : Asked) :
    Named one.2 (checkedOf ns one).tools := by
  obtain ⟨s, error | tools⟩ := one
  · rfl
  · have hnames : (checkedOf ns (s, .ok tools)).tools = (tools.map Tool.name).toFinset.sort (· ≤ ·) := by
      rw [← cached_names]
      rfl
    rw [hnames]
    refine ⟨Finset.pairwise_sort _ _, Finset.sort_nodup _ _, fun name => ?_⟩
    rw [Finset.mem_sort, List.mem_toFinset]

end Filters

section Attribution
variable {α β κ : Type} [DecidableEq κ]

/-- What each item adds bears its own key: what bears the key of an item is
what that item has added. -/
theorem filter_flatMap_key {l : List α} {f : α → List β} {key : α → κ} {keyOf : β → Option κ}
    (hdistinct : (l.map key).Nodup) (hkey : ∀ a ∈ l, ∀ b ∈ f a, keyOf b = some (key a)) {a : α}
    (ha : a ∈ l) : (l.flatMap f).filter (fun b => decide (keyOf b = some (key a))) = f a := by
  induction l with
  | nil => cases ha
  | cons x rest ih =>
    obtain ⟨hfresh, hrest⟩ := List.nodup_cons.mp hdistinct
    obtain ⟨hx, hkeys⟩ := List.forall_mem_cons.mp hkey
    rw [List.flatMap_cons, List.filter_append]
    rcases List.mem_cons.mp ha with rfl | ha
    · have hown : (f a).filter (fun b => decide (keyOf b = some (key a))) = f a :=
        List.filter_eq_self.mpr fun b hb => decide_eq_true (hx b hb)
      have hothers : (rest.flatMap f).filter (fun b => decide (keyOf b = some (key a))) = [] := by
        apply List.filter_eq_nil_iff.mpr
        intro b hb
        obtain ⟨y, hy, hb⟩ := List.mem_flatMap.mp hb
        rw [decide_eq_true_eq, hkeys y hy b hb, Option.some.injEq]
        exact fun heq => hfresh (heq ▸ List.mem_map_of_mem hy)
      rw [hown, hothers, List.append_nil]
    · have hnone : (f x).filter (fun b => decide (keyOf b = some (key a))) = [] := by
        apply List.filter_eq_nil_iff.mpr
        intro b hb
        rw [decide_eq_true_eq, hx b hb, Option.some.injEq]
        exact fun heq => hfresh (heq ▸ List.mem_map_of_mem ha)
      rw [hnone, List.nil_append, ih hrest hkeys ha]

end Attribution

section Results
variable {config : TomlConfig} {selected : Text} {ns : ActiveNamespace} {asked : List Asked}

theorem mapToolError_about {s : Text} {error : ToolError} (h : ErrorAbout config s error) :
    (mapToolError error).server = some s ∧
      (mapToolError error).code ≠ "configured_tool_missing".toList := by
  cases h <;> exact ⟨rfl, by simp [mapToolError, connectFailed]⟩

theorem errorsOf_server {one : Asked} (h : Blames config one.1 one.2) (e : CheckError)
    (he : e ∈ errorsOf ns one) : e.server = some one.1 := by
  obtain ⟨s, error | tools⟩ := one
  · obtain rfl := List.mem_singleton.mp he
    exact (mapToolError_about (h error rfl)).1
  · obtain ⟨name, -, rfl⟩ := List.mem_map.mp he
    rfl

theorem recorded_errors (config : TomlConfig) (ns : ActiveNamespace) (asked : List Asked) :
    (recordAll config ns asked (.new ns.name)).concluded.errors = asked.flatMap (errorsOf ns) := by
  rw [recordAll_eq]
  rfl

theorem recorded_servers (config : TomlConfig) (ns : ActiveNamespace) (asked : List Asked) :
    (recordAll config ns asked (.new ns.name)).concluded.servers = asked.map (checkedOf ns) := by
  rw [recordAll_eq]
  rfl

theorem recorded_ok (hnew : ActiveNamespace.new config selected = .ok ns) :
    (recordAll config ns asked (.new ns.name)).concluded.ok = true ↔
      ∀ one ∈ asked, Healthy config (selectedNamespace selected) one.1 one.2 := by
  have hempty : (recordAll config ns asked (.new ns.name)).concluded.ok =
      (asked.flatMap (errorsOf ns)).isEmpty := by
    rw [← recorded_errors config]
    rfl
  rw [hempty, List.isEmpty_iff, List.flatMap_eq_nil_iff]
  exact forall₂_congr fun one _ => errorsOf_nil hnew one

theorem recorded_about (hdistinct : (asked.map Prod.fst).Nodup)
    (hblame : ∀ one ∈ asked, Blames config one.1 one.2) {one : Asked} (hone : one ∈ asked) :
    errorsAbout (recordAll config ns asked (.new ns.name)).concluded one.1 = errorsOf ns one := by
  rw [errorsAbout, recorded_errors]
  exact filter_flatMap_key hdistinct (fun x hx => errorsOf_server (hblame x hx)) hone

theorem recorded_status (hdistinct : (asked.map Prod.fst).Nodup)
    (hblame : ∀ one ∈ asked, Blames config one.1 one.2) {one : Asked} (hone : one ∈ asked) :
    ((checkedOf ns one).status = "ok".toList ∨ (checkedOf ns one).status = "error".toList) ∧
      ((checkedOf ns one).status = "ok".toList ↔
        ∀ e ∈ (recordAll config ns asked (.new ns.name)).concluded.errors,
          e.server ≠ some (checkedOf ns one).name) := by
  have hnone : (∀ e ∈ (recordAll config ns asked (.new ns.name)).concluded.errors,
      e.server ≠ some one.1) ↔ errorsOf ns one = [] := by
    rw [← recorded_about hdistinct hblame hone, errorsAbout, List.filter_eq_nil_iff]
    simp only [decide_eq_true_eq, ne_eq]
  rw [checkedOf_name, hnone, checkedOf_status, ← List.isEmpty_iff]
  cases (errorsOf ns one).isEmpty with
  | true => simp
  | false => simp

theorem recorded_verdict (hnew : ActiveNamespace.new config selected = .ok ns)
    (hdistinct : (asked.map Prod.fst).Nodup) (hblame : ∀ one ∈ asked, Blames config one.1 one.2) :
    Verdict config (selectedNamespace selected) asked
      (recordAll config ns asked (.new ns.name)).concluded where
  ok := recorded_ok hnew
  servers := by
    rw [recorded_servers, List.map_map]
    exact List.map_congr_left fun one _ => checkedOf_name ns one
  tools := by
    rw [recorded_servers, List.forall₂_map_right_iff, List.forall₂_same]
    exact fun one _ => checkedOf_tools ns one
  statuses entry hentry := by
    rw [recorded_servers] at hentry
    obtain ⟨one, hone, rfl⟩ := List.mem_map.mp hentry
    exact recorded_status hdistinct hblame hone
  named e he := by
    rw [recorded_errors] at he
    obtain ⟨one, hone, he⟩ := List.mem_flatMap.mp he
    exact ⟨one, hone, errorsOf_server (hblame one hone) e he⟩
  failed s error hone :=
    ⟨recorded_about hdistinct hblame hone, (mapToolError_about (hblame _ hone error rfl)).2⟩
  missing s tools hone :=
    ⟨missingTools ns s (tools.map cachedTool), missingTools_nodup ns s _,
      mem_missingTools hnew s tools, recorded_about hdistinct hblame hone⟩

end Results

section Runs
variable {host : Host} {args : CheckArgs} {config : TomlConfig} {State : Type}
  {R : Semantics registryOps State} {s s' : State} {t : List (Exchange registryOps)}
  {out : Emitted × Files}

theorem loadAndValidate_valid {it : HashIteration} {fromStr : Text → Except Text TomlConfig}
    {contents : Except Text Text} {selected : Text}
    (h : loadAndValidate it fromStr contents selected = .ok config) : Valid config selected := by
  cases contents with
  | error e => cases h
  | ok text =>
    simp only [loadAndValidate] at h
    cases hparse : fromStr text with
    | error e => simp [hparse] at h
    | ok parsed =>
      rw [hparse] at h
      cases hvalid : validate it parsed selected with
      | error failure => simp [hvalid, Except.map] at h
      | ok u =>
        simp only [hvalid, Except.map, Except.ok.injEq] at h
        rw [← h]
        exact (validate_ok it).mp hvalid

theorem loadConfig_valid (h : loadConfig host args = .ok config) :
    Valid config args.namespaceArg := by
  cases hpath : args.configPath with
  | none => simp [loadConfig, hpath] at h
  | some path =>
    simp only [loadConfig, hpath] at h
    cases hloaded : loadAndValidate host.iteration host.fromStr (host.readToString path)
        args.namespaceArg with
    | error failure => cases failure <;> simp [hloaded] at h
    | ok loaded =>
      simp only [hloaded, Except.ok.injEq] at h
      exact h ▸ loadAndValidate_valid hloaded

theorem loaded_namespace (h : loadConfig host args = .ok config) :
    ∃ ns, ActiveNamespace.new config args.namespaceArg = .ok ns := by
  have hvalid := loadConfig_valid h
  obtain ⟨acl, hacl, -⟩ := hvalid.namespaces _ hvalid.active
  refine ⟨⟨selectedNamespace args.namespaceArg, acl.servers, acl.tools⟩, ?_⟩
  simp only [ActiveNamespace.new, hacl]

theorem visible_iff {ns : ActiveNamespace}
    (h : ActiveNamespace.new config args.namespaceArg = .ok ns) (server : Text) :
    ns.isServerAllowed server = true ↔
      Visible config (selectedNamespace args.namespaceArg) server := by
  obtain ⟨acl, hres, rfl⟩ := new_resolved h
  exact composed_visible (resolveNamespace_composes hres) _ server

theorem plan_loaded {ns : ActiveNamespace} (h : loadConfig host args = .ok config)
    (hnew : ActiveNamespace.new config args.namespaceArg = .ok ns) :
    plan host args = (checkedServers ns args.serverFilter).map (Plan.mk config ns) := by
  rw [plan, h]
  dsimp only
  rw [hnew]

theorem checkedServers_hidden {ns : ActiveNamespace} {server : Text}
    (hnew : ActiveNamespace.new config args.namespaceArg = .ok ns)
    (hfilter : args.serverFilter = some server)
    (hhidden : ¬ Visible config (selectedNamespace args.namespaceArg) server) :
    checkedServers ns args.serverFilter = .error (.failed (serverNotAllowed server)) := by
  have hdenied : ¬ ns.isServerAllowed server = true := fun hallowed =>
    hhidden ((visible_iff hnew server).mp hallowed)
  rw [hfilter, checkedServers, if_neg hdenied]

theorem checkedServers_visible {ns : ActiveNamespace}
    (hnew : ActiveNamespace.new config args.namespaceArg = .ok ns)
    (h : ∀ server, args.serverFilter = some server →
      Visible config (selectedNamespace args.namespaceArg) server) :
    ∃ servers, checkedServers ns args.serverFilter = .ok servers := by
  cases hfilter : args.serverFilter with
  | none => exact ⟨ns.allowedServers, rfl⟩
  | some server =>
    have hallowed := (visible_iff hnew server).mpr (h server hfilter)
    exact ⟨[server], by rw [checkedServers, if_pos hallowed]⟩

theorem checkedServers_spec {ns : ActiveNamespace} {servers : List Text}
    (hnew : ActiveNamespace.new config args.namespaceArg = .ok ns)
    (h : checkedServers ns args.serverFilter = .ok servers) :
    servers.Pairwise (· ≤ ·) ∧ servers.Nodup ∧
      ∀ x, x ∈ servers ↔
        Checked config (selectedNamespace args.namespaceArg) args.serverFilter x := by
  cases hfilter : args.serverFilter with
  | none =>
    rw [hfilter] at h
    obtain rfl := Except.ok.inj h
    refine ⟨ns.servers.pairwise_sort _, ns.servers.sort_nodup _, fun x => ?_⟩
    rw [mem_allowedServers, visible_iff hnew]
    rfl
  | some server =>
    rw [hfilter, checkedServers] at h
    split_ifs at h
    obtain rfl := Except.ok.inj h
    exact ⟨List.pairwise_singleton _ _, List.nodup_singleton _, fun x => List.mem_singleton⟩

/-- A check that is not refused asks its servers, each of them once, and what it
prints is what it has recorded. -/
theorem run_recorded (hload : loadConfig host args = .ok config)
    (hrun : Runs R (run host args) s t out s')
    (hfilter : ∀ server, args.serverFilter = some server →
      Visible config (selectedNamespace args.namespaceArg) server) :
    ∃ ns servers outcomes,
      ActiveNamespace.new config args.namespaceArg = .ok ns ∧ servers.Nodup ∧
      (∀ x, x ∈ servers ↔
        Checked config (selectedNamespace args.namespaceArg) args.serverFilter x) ∧
      Runs R (inventories config servers) s t outcomes s' ∧
      List.Forall₂ (Blames config) servers outcomes ∧
      out = finish host args ⟨config, ns, servers⟩
        (recordAll config ns (servers.zip outcomes) (.new ns.name)) := by
  obtain ⟨ns, hnew⟩ := loaded_namespace hload
  obtain ⟨servers, hservers⟩ := checkedServers_visible hnew hfilter
  have hplan := plan_loaded hload hnew
  rw [hservers] at hplan
  obtain ⟨outcomes, hasked, hout⟩ := (run_planned hplan).mp hrun
  obtain ⟨-, hnodup, hmem⟩ := checkedServers_spec hnew hservers
  have hblame := (all_runs (inventories_blame config servers) hasked).2
  exact ⟨ns, servers, outcomes, hnew, hnodup, hmem, hasked, hblame, hout⟩

theorem asked_distinct {servers : List Text} {outcomes : List (Outcome (List Tool))}
    (hnodup : servers.Nodup) (hblame : List.Forall₂ (Blames config) servers outcomes) :
    ((servers.zip outcomes).map Prod.fst).Nodup := by
  rwa [List.map_fst_zip hblame.length_eq.le]

/-- How the process ends. A result that was to be printed and is not taken is a failure. -/
def exitSuccess (json taken : Bool) (emitted : Emitted) : Bool :=
  (taken || !json) && emitted.success

theorem emit_success {result : CheckResult} {json : Bool}
    (h : (emit result json).success = true) : result.ok = true := by
  cases json <;> exact h

/-- A check of a valid configuration. With a filter that names a server which is
not visible nothing is done at all. Otherwise the servers are asked in order,
and the result is what the graph and the inventories make of it; it is printed, the
process succeeds only with it, and the files change only by the cache that a full check
without errors writes. -/
theorem preflight_verdict (hload : loadConfig host args = .ok config)
    (hrun : Runs R (run host args) s t out s') :
    (∀ server, args.serverFilter = some server →
      ¬ Visible config (selectedNamespace args.namespaceArg) server →
      t = [] ∧ s' = s ∧ out = (emit (.failure (selectedNamespace args.namespaceArg)
        (serverNotAllowed server)) args.json, host.disk.files) ∧
      Prints ⟨selectedNamespace args.namespaceArg, false, [], [serverNotAllowed server], []⟩
        args.json out.1) ∧
    ((∀ server, args.serverFilter = some server →
        Visible config (selectedNamespace args.namespaceArg) server) →
      ∃ ns servers outcomes result,
        ActiveNamespace.new config args.namespaceArg = .ok ns ∧
        servers.Pairwise (· ≤ ·) ∧ servers.Nodup ∧
        (∀ x, x ∈ servers ↔
          Checked config (selectedNamespace args.namespaceArg) args.serverFilter x) ∧
        outcomes.length = servers.length ∧
        Runs R (inventories config servers) s t outcomes s' ∧
        result.namespaceName = selectedNamespace args.namespaceArg ∧
        Verdict config (selectedNamespace args.namespaceArg) (servers.zip outcomes) result ∧
        out.1 = emit result args.json ∧ Prints result args.json out.1 ∧
        (∀ taken, exitSuccess args.json taken out.1 = true → result.ok = true) ∧
        out.2 = if result.ok = true ∧ args.serverFilter = none ∧ args.noCacheWrite = false then
          (writeCapabilityCache host.serde host.disk host.now config ns result).2
          else host.disk.files) := by
  obtain ⟨ns, hnew⟩ := loaded_namespace hload
  have hplan := plan_loaded hload hnew
  constructor
  · intro server hfilter hhidden
    rw [checkedServers_hidden hnew hfilter hhidden] at hplan
    rw [run, hplan] at hrun
    obtain ⟨rfl, rfl, rfl⟩ := runs_done.mp hrun
    exact ⟨rfl, rfl, rfl, emit_prints _ _⟩
  · intro hfilter
    obtain ⟨servers, hservers⟩ := checkedServers_visible hnew hfilter
    rw [hservers] at hplan
    obtain ⟨outcomes, hasked, rfl⟩ := (run_planned hplan).mp hrun
    obtain ⟨hsorted, hnodup, hmem⟩ := checkedServers_spec hnew hservers
    have hblame := (all_runs (inventories_blame config servers) hasked).2
    have hdistinct : ((servers.zip outcomes).map Prod.fst).Nodup := by
      rw [List.map_fst_zip hblame.length_eq.le]
      exact hnodup
    have hverdict := recorded_verdict hnew hdistinct fun one hone => List.forall₂_zip hblame hone
    refine ⟨ns, servers, outcomes, _, hnew, hsorted, hnodup, hmem, hblame.length_eq.symm, hasked,
      ?_, hverdict, rfl, emit_prints _ _, ?_, ?_⟩
    · obtain ⟨acl, -, rfl⟩ := new_resolved hnew
      rw [recordAll_eq]
      rfl
    · intro taken hexit
      exact emit_success (Bool.and_eq_true_iff.mp hexit).2
    · simp only [finish, Bool.and_eq_true, Bool.not_eq_true', Option.isNone_iff_eq_none, and_assoc]

end Runs

theorem preflight_verdict_refused :
    ∃ t out, Runs (answering (refusing (refusal "alpha".toList)))
        (run (hostOf "alpha".toList) checkDb) () t out () ∧
      ∃ (servers : List Text) (outcomes : List (Outcome (List Tool))) (result : CheckResult),
        (∀ x, x ∈ servers ↔ x = "db".toList) ∧
        Verdict (guarded "alpha".toList) defaultNamespace (servers.zip outcomes) result ∧
        Prints result true out.1 := by
  obtain ⟨t, hasked⟩ := runs_evaluated.mpr alpha_refused
  have hrun := (run_planned (hostOf_plan "alpha".toList)).mpr ⟨_, hasked, rfl⟩
  have hvisible : Visible (guarded "alpha".toList) (selectedNamespace checkDb.namespaceArg)
      "db".toList := (@visible_iff checkDb _ dbNamespace rfl "db".toList).mp rfl
  obtain ⟨ns, servers, outcomes, result, -, -, -, hmem, -, -, -, hverdict, -, hprints, -, -⟩ :=
    (preflight_verdict (hostOf_loads "alpha".toList) hrun).2 fun server hserver => by
      obtain rfl := Option.some.inj hserver
      exact hvisible
  exact ⟨t, _, hrun, servers, outcomes, result, hmem, hverdict, hprints⟩

end FaninMcp.PreflightVerdict
