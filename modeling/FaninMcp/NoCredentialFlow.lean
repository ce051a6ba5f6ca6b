import FaninMcp.CacheRoundTrip
import FaninMcp.Foundation.SequentialRuns
import FaninMcp.MetaAcl
import FaninMcp.NamespaceMaps

/-!
# What a check tells about credentials

Two checks of configurations that differ in the values of credentials only. As
long as their upstreams answer alike, or fail in the same way, they print the
same and cache the same: an error is reported by its kind and the key it could
not resolve, never by the text that came with it.
-/

set_option autoImplicit false

namespace FaninMcp.NoCredentialFlow
open Foundation.RustText Foundation.AsyncPrograms FaninMcp.ConfigModel FaninMcp.ErrorModel
  FaninMcp.NamespaceResolver FaninMcp.ConfigValidation FaninMcp.NamespaceAcl
  FaninMcp.NamespaceMaps FaninMcp.CapabilityCache FaninMcp.RegistryModel FaninMcp.RegistryProtocol
  FaninMcp.MetaAcl FaninMcp.CacheFile FaninMcp.CheckRun FaninMcp.CacheRoundTrip

section Configurations

/-- The servers differ in the values of `env` and `headers` and in `log_file`. -/
structure SameButSecrets (a b : ServerConfig) : Prop where
  transport : a.transport = b.transport
  command : a.command = b.command
  endpoint : a.endpoint = b.endpoint
  args : a.args = b.args
  description : a.description = b.description
  cwd : a.cwd = b.cwd
  timeoutSecs : a.timeoutSecs = b.timeoutSecs
  env : ∀ key, key ∈ a.env ↔ key ∈ b.env
  headers : ∀ key, key ∈ a.headers ↔ key ∈ b.headers

structure ConfigsMatch (c₁ c₂ : TomlConfig) : Prop where
  namespaces : SameNamespaces c₁ c₂
  servers : ∀ s, Option.Rel SameButSecrets (c₁.servers.lookup s) (c₂.servers.lookup s)

variable {c₁ c₂ : TomlConfig} {n m : ActiveNamespace}

theorem SameButSecrets.symm {a b : ServerConfig} (h : SameButSecrets a b) : SameButSecrets b a :=
  ⟨h.transport.symm, h.command.symm, h.endpoint.symm, h.args.symm, h.description.symm, h.cwd.symm,
    h.timeoutSecs.symm, fun key => (h.env key).symm, fun key => (h.headers key).symm⟩

theorem lookup_cases (h : ConfigsMatch c₁ c₂) (s : Text) :
    (c₁.servers.lookup s = none ∧ c₂.servers.lookup s = none) ∨
      ∃ a b, c₁.servers.lookup s = some a ∧ c₂.servers.lookup s = some b ∧ SameButSecrets a b := by
  have hs := h.servers s
  generalize c₁.servers.lookup s = a at hs ⊢
  generalize c₂.servers.lookup s = b at hs ⊢
  cases hs with
  | none => exact Or.inl ⟨rfl, rfl⟩
  | some hab => exact Or.inr ⟨_, _, rfl, rfl, hab⟩

theorem ConfigsMatch.symm (h : ConfigsMatch c₁ c₂) : ConfigsMatch c₂ c₁ := by
  refine ⟨fun name => rel_symm (fun _ _ => .symm) (h.namespaces name), fun s => ?_⟩
  rcases lookup_cases h s with ⟨ha, hb⟩ | ⟨a, b, ha, hb, hab⟩
  · rw [ha, hb]
    exact .none
  · rw [ha, hb]
    exact .some hab.symm

theorem transportKind_same {a b : ServerConfig} (h : SameButSecrets a b) :
    a.transportKind = b.transportKind :=
  congrArg (·.getD "stdio".toList) h.transport

theorem sameServer {a b : ServerConfig} (h : SameButSecrets a b) : SameServer a b :=
  ⟨transportKind_same h, h.command, h.args, h.endpoint, h.cwd, h.timeoutSecs, h.description⟩

theorem serverReady_same {a b : ServerConfig} (h : SameButSecrets a b) (ha : ServerReady a) :
    ServerReady b := by
  constructor
  · rw [← h.cwd]
    exact ha.cwd
  · rw [← transportKind_same h, ← h.command, ← h.endpoint]
    exact ha.fields

theorem lookup_match (h : ConfigsMatch c₁ c₂) {s : Text} {a : ServerConfig}
    (ha : c₁.servers.lookup s = some a) : ∃ b, c₂.servers.lookup s = some b ∧ SameButSecrets a b := by
  rcases lookup_cases h s with ⟨hnone, _⟩ | ⟨a', b, ha', hb, hab⟩
  · rw [ha] at hnone
    cases hnone
  · rw [ha] at ha'
    obtain rfl := Option.some.inj ha'
    exact ⟨b, hb, hab⟩

theorem mem_match (h : ConfigsMatch c₁ c₂) {s : Text} (hs : s ∈ c₁.servers) : s ∈ c₂.servers := by
  obtain ⟨a, ha⟩ := Option.isSome_iff_exists.mp (AList.lookup_isSome.mpr hs)
  obtain ⟨b, hb, _⟩ := lookup_match h ha
  exact AList.lookup_isSome.mp (by simp [hb])

theorem valid_match (h : ConfigsMatch c₁ c₂) {selected : Text} (hv : Valid c₁ selected) :
    Valid c₂ selected where
  names s hs := hv.names s (mem_match h.symm hs)
  servers entry hentry := by
    obtain ⟨a, ha, hab⟩ := lookup_match h.symm (AList.mem_lookup_iff.mpr hentry)
    exact serverReady_same hab.symm (hv.servers ⟨entry.1, a⟩ (AList.mem_lookup_iff.mp ha))
  active := (declared_same h.namespaces _).mp hv.active
  namespaces name hname := by
    obtain ⟨acl, hacl, hservers, hkeys⟩ :=
      hv.namespaces name ((declared_same h.namespaces name).mpr hname)
    obtain ⟨e, hfailed, _⟩ | ⟨a, b, ha, hb, hab⟩ := resolveNamespace_same h.namespaces name
    · rw [hacl] at hfailed
      cases hfailed
    · obtain rfl : acl = a := Except.ok.inj (hacl.symm.trans ha)
      refine ⟨b, hb, fun s hs => mem_match h (hservers s (hab.servers ▸ hs)), fun s hs => ?_⟩
      rw [← hab.servers]
      exact hkeys s ((filtered_same hab s).mpr hs)

theorem fingerprint_match (h : ConfigsMatch c₁ c₂) (hns : SameActive n m) :
    configFingerprint c₁ n = configFingerprint c₂ m := by
  refine configFingerprint_eq.mpr ⟨hns.name, hns.servers, hns.tools, fun s _ => ?_⟩
  rcases lookup_cases h s with ⟨ha, hb⟩ | ⟨a, b, ha, hb, hab⟩
  · rw [ha, hb]
    exact .none
  · rw [ha, hb]
    exact .some (sameServer hab)

theorem description_match (h : ConfigsMatch c₁ c₂) (s : Text) :
    (c₁.servers.lookup s).bind ServerConfig.description =
      (c₂.servers.lookup s).bind ServerConfig.description := by
  rcases lookup_cases h s with ⟨ha, hb⟩ | ⟨a, b, ha, hb, hab⟩
  · rw [ha, hb]
  · rw [ha, hb]
    exact hab.description

end Configurations

section Outcomes

inductive ErrorKind where
  | notImplemented
  | invalidRequest
  | unknownServer
  | unknownTool
  | namespaceDenied
  | upstreamConnect
  | upstreamCall
  | upstreamDisconnected
  | upstreamTimeout
  | callCancelled
  | credentialResolution
  deriving DecidableEq

def errorKind : ToolError → ErrorKind
  | .notImplemented _ => .notImplemented
  | .invalidRequest _ _ => .invalidRequest
  | .unknownServer _ => .unknownServer
  | .unknownTool _ _ => .unknownTool
  | .namespaceDenied _ _ => .namespaceDenied
  | .upstreamConnect _ _ => .upstreamConnect
  | .upstreamCall _ _ _ => .upstreamCall
  | .upstreamDisconnected _ _ => .upstreamDisconnected
  | .upstreamTimeout _ _ => .upstreamTimeout
  | .callCancelled _ _ => .callCancelled
  | .credentialResolution _ _ => .credentialResolution

def missingKey : ToolError → Option Text
  | .credentialResolution _ key => some key
  | _ => none

def SameOutcome : Outcome (List Tool) → Outcome (List Tool) → Prop
  | .ok a, .ok b => a = b
  | .error e, .error f => errorKind e = errorKind f ∧ missingKey e = missingKey f
  | _, _ => False

variable {c₁ c₂ : TomlConfig} {n m : ActiveNamespace}

theorem mapToolError_same {server : Text} {e f : ToolError} (he : ErrorAbout c₁ server e)
    (hf : ErrorAbout c₂ server f) (hkind : errorKind e = errorKind f)
    (hkey : missingKey e = missingKey f) : mapToolError e = mapToolError f := by
  cases he with
  | credentialResolution key =>
    cases hf with
    | credentialResolution key' =>
      obtain rfl : key = key' := by simpa [missingKey] using hkey
      rfl
    | _ => cases hkind
  | _ =>
    cases hf <;> cases hkind
    rfl

theorem missingTools_same (hns : SameActive n m) (server : Text) (tools : List CachedTool) :
    missingTools n server tools = missingTools m server tools := by
  rw [missingTools, explicitTools, hns.tools, missingTools, explicitTools]

theorem record_match (h : ConfigsMatch c₁ c₂) (hns : SameActive n m) {server : Text}
    {a b : Outcome (List Tool)} (ha : Blames c₁ server a) (hb : Blames c₂ server b)
    (hsame : SameOutcome a b) (result : CheckResult) :
    record c₁ n server a result = record c₂ m server b result := by
  cases a with
  | ok tools =>
    cases b with
    | ok tools' =>
      obtain rfl : tools = tools' := hsame
      simp only [record, recordInventory, description_match h server, missingTools_same hns]
    | error e => exact hsame.elim
  | error e =>
    cases b with
    | ok tools => exact hsame.elim
    | error f =>
      have herror := mapToolError_same (ha e rfl) (hb f rfl) hsame.1 hsame.2
      simp only [record, recordError, herror]

theorem recordAll_match (h : ConfigsMatch c₁ c₂) (hns : SameActive n m) {servers : List Text}
    {o₁ o₂ : List (Outcome (List Tool))} (h₁ : List.Forall₂ (Blames c₁) servers o₁)
    (h₂ : List.Forall₂ (Blames c₂) servers o₂) (hsame : List.Forall₂ SameOutcome o₁ o₂)
    (result : CheckResult) :
    recordAll c₁ n (servers.zip o₁) result = recordAll c₂ m (servers.zip o₂) result := by
  induction servers generalizing o₁ o₂ result with
  | nil => rfl
  | cons server rest ih =>
    cases h₁ with
    | cons ha h₁ =>
      cases h₂ with
      | cons hb h₂ =>
        cases hsame with
        | cons hab hsame =>
          have hone := record_match h hns ha hb hab result
          rw [List.zip_cons_cons, List.zip_cons_cons]
          change recordAll c₁ n _ (record c₁ n server _ result) =
            recordAll c₂ m _ (record c₂ m server _ result)
          rw [hone]
          exact ih h₁ h₂ hsame _

/-- Whatever upstreams and credential stores answer, an inventory that fails
does so with an error about the server asked. -/
theorem inventories_blame (config : TomlConfig) (servers : List Text) :
    (inventories config servers).All (fun _ => True)
      (fun outcomes => List.Forall₂ (Blames config) servers outcomes) := by
  induction servers with
  | nil => exact .nil
  | cons server rest ih =>
    apply all_bind
    apply all_mono (fun _ _ => trivial) _ (inventory_all config)
    intro outcome houtcome
    apply all_bind
    apply all_mono (fun _ _ => trivial) _ ih
    intro outcomes houtcomes
    exact .cons houtcome houtcomes

end Outcomes

section Checks

def Loads (host : Host) (args : CheckArgs) (config : TomlConfig) : Prop :=
  ∀ path, args.configPath = some path →
    ∃ text, host.readToString path = .ok text ∧ host.fromStr text = .ok config

/-- Both go on, with values that match, or both stop with the same error. Of a
panic nothing is said. -/
inductive SameVerdict {α β : Type} (R : α → β → Prop) : Except Stop α → Except Stop β → Prop
  | ok {a : α} {b : β} : R a b → SameVerdict R (.ok a) (.ok b)
  | failed (e : CheckError) : SameVerdict R (.error (.failed e)) (.error (.failed e))
  | left (message : Text) (y : Except Stop β) : SameVerdict R (.error (.panicked message)) y
  | right (x : Except Stop α) (message : Text) : SameVerdict R x (.error (.panicked message))

structure PlansMatch (p q : Plan) : Prop where
  config : ConfigsMatch p.config q.config
  ns : SameActive p.ns q.ns
  servers : p.servers = q.servers

variable {c₁ c₂ : TomlConfig} {host host₁ host₂ : Host} {args : CheckArgs}

theorem loadConfig_file {config : TomlConfig} {path : Text} (hpath : args.configPath = some path)
    (h : Loads host args config) : loadConfig host args =
      match validate host.iteration config args.namespaceArg with
      | .ok () => .ok config
      | .error (.returned _) => .error (.failed configValidationFailed)
      | .error (.panicked message) => .error (.panicked message) := by
  obtain ⟨text, htext, hparse⟩ := h path hpath
  simp only [loadConfig, hpath, loadAndValidate, htext, hparse]
  rcases validate host.iteration config args.namespaceArg with (_ | _) | _ <;> rfl

theorem loadConfig_same (h₁ : Loads host₁ args c₁) (h₂ : Loads host₂ args c₂)
    (h : ConfigsMatch c₁ c₂) :
    SameVerdict (fun a b => a = c₁ ∧ b = c₂) (loadConfig host₁ args) (loadConfig host₂ args) := by
  cases hpath : args.configPath with
  | none =>
    simp only [loadConfig, hpath]
    exact .failed _
  | some path =>
    have hverdict : validate host₁.iteration c₁ args.namespaceArg = .ok () ↔
        validate host₂.iteration c₂ args.namespaceArg = .ok () := by
      rw [validate_ok, validate_ok]
      exact ⟨valid_match h, valid_match h.symm⟩
    rw [loadConfig_file hpath h₁, loadConfig_file hpath h₂]
    rcases hv₁ : validate host₁.iteration c₁ args.namespaceArg with (_ | _) | _
    · rcases hv₂ : validate host₂.iteration c₂ args.namespaceArg with (_ | _) | _
      · exact .failed _
      · exact .right _ _
      · simp [hv₁, hv₂] at hverdict
    · exact .left _ _
    · rw [hverdict.mp hv₁]
      exact .ok ⟨rfl, rfl⟩

theorem plan_same (h₁ : Loads host₁ args c₁) (h₂ : Loads host₂ args c₂) (h : ConfigsMatch c₁ c₂) :
    SameVerdict PlansMatch (plan host₁ args) (plan host₂ args) := by
  have hload := loadConfig_same h₁ h₂ h
  rw [plan, plan]
  generalize loadConfig host₁ args = l₁ at hload ⊢
  generalize loadConfig host₂ args = l₂ at hload ⊢
  cases hload with
  | failed e => exact .failed e
  | left message y => exact .left message _
  | right x message => exact .right _ message
  | ok hab =>
    obtain ⟨rfl, rfl⟩ := hab
    dsimp only
    rcases new_same h.namespaces args.namespaceArg with ⟨e, h₁, h₂⟩ | ⟨n, m, h₁, h₂, hns⟩
    · rw [h₁]
      exact .left e _
    · rw [h₁, h₂]
      dsimp only
      cases args.serverFilter with
      | none => exact .ok ⟨h, hns, allowedServers_same hns⟩
      | some server =>
        rw [checkedServers, checkedServers, isServerAllowed_same hns]
        split_ifs
        · exact .ok ⟨h, hns, rfl⟩
        · exact .failed _

variable {State : Type} {R : Semantics registryOps State} {s s' : State}
  {t : List (Exchange registryOps)} {out : Emitted × Files}

theorem run_planned {p : Plan} (hplan : plan host args = .ok p) :
    Runs R (run host args) s t out s' ↔
      ∃ outcomes, Runs R (inventories p.config p.servers) s t outcomes s' ∧
        out = finish host args p
          (recordAll p.config p.ns (p.servers.zip outcomes) (.new p.ns.name)) := by
  have hrun : run host args = inventories p.config p.servers >>= fun outcomes =>
      pure (finish host args p
        (recordAll p.config p.ns (p.servers.zip outcomes) (.new p.ns.name))) := by
    rw [run, hplan]
    dsimp only
    rw [checkServers_eq, prog_bind_assoc]
    rfl
  rw [hrun, runs_bind]
  constructor
  · rintro ⟨t₁, t₂, outcomes, mid, rfl, hasked, hdone⟩
    obtain ⟨rfl, rfl, rfl⟩ := runs_done.mp hdone
    exact ⟨outcomes, by rwa [List.append_nil], rfl⟩
  · rintro ⟨outcomes, hasked, rfl⟩
    exact ⟨t, [], outcomes, s', (List.append_nil t).symm, hasked, .done _ _⟩

theorem run_failed {e : CheckError} (hplan : plan host args = .error (.failed e))
    (h : Runs R (run host args) s t out s') :
    out = (emit (.failure (selectedNamespace args.namespaceArg) e) args.json, host.disk.files) := by
  rw [run, hplan] at h
  exact (runs_done.mp h).2.1

theorem run_panicked {message : Text} (hplan : plan host args = .error (.panicked message))
    (h : Runs R (run host args) s t out s') : False := by
  rw [run, hplan] at h
  obtain ⟨never, _⟩ := runs_act.mp h
  exact never.elim

/-- The files after a check that has written this much to the cache. -/
def afterwards (host : Host) : Option Cache → Files
  | none => host.disk.files
  | some cache => (storeCache host.serde host.disk { cache with generatedAt := host.now }).2

def written (args : CheckArgs) (p : Plan) (result : CheckResult) : Option Cache :=
  if result.concluded.ok && args.serverFilter.isNone && !args.noCacheWrite then
    some (capabilityCache [] p.config p.ns result.concluded)
  else none

theorem finish_written (host : Host) (args : CheckArgs) (p : Plan) (result : CheckResult) :
    finish host args p result =
      (emit result.concluded args.json, afterwards host (written args p result)) := by
  rw [finish, written]
  split_ifs <;> rfl

theorem written_match {p q : Plan} (h : PlansMatch p q) (result : CheckResult) :
    written args p result = written args q result := by
  simp only [written, capabilityCache, h.ns.name, fingerprint_match h.config h.ns]

end Checks

section Flow
variable {State₁ State₂ : Type} {R₁ : Semantics registryOps State₁} {R₂ : Semantics registryOps State₂}
  {s₁ s₁' : State₁} {s₂ s₂' : State₂} {t₁ t₂ : List (Exchange registryOps)}
  {out₁ out₂ : Emitted × Files} {host₁ host₂ : Host} {args : CheckArgs} {c₁ c₂ : TomlConfig}

def SameInventories (host₁ host₂ : Host) (args : CheckArgs) (R₁ : Semantics registryOps State₁)
    (R₂ : Semantics registryOps State₂) (s₁ s₁' : State₁) (s₂ s₂' : State₂)
    (t₁ t₂ : List (Exchange registryOps)) : Prop :=
  ∀ p₁ p₂ o₁ o₂, plan host₁ args = .ok p₁ → plan host₂ args = .ok p₂ →
    Runs R₁ (inventories p₁.config p₁.servers) s₁ t₁ o₁ s₁' →
    Runs R₂ (inventories p₂.config p₂.servers) s₂ t₂ o₂ s₂' → List.Forall₂ SameOutcome o₁ o₂

/-- Two checks on hosts whose configurations differ in credentials only, with
credential stores, environments and upstreams that may differ in all but what
the inventories come to, print the same and write the same cache but for the
time. -/
theorem no_credential_flow (h₁ : Loads host₁ args c₁) (h₂ : Loads host₂ args c₂)
    (hconfig : ConfigsMatch c₁ c₂) (hrun₁ : Runs R₁ (run host₁ args) s₁ t₁ out₁ s₁')
    (hrun₂ : Runs R₂ (run host₂ args) s₂ t₂ out₂ s₂')
    (hsame : SameInventories host₁ host₂ args R₁ R₂ s₁ s₁' s₂ s₂' t₁ t₂) :
    out₁.1 = out₂.1 ∧
      ∃ cache, out₁.2 = afterwards host₁ cache ∧ out₂.2 = afterwards host₂ cache := by
  have hplan := plan_same h₁ h₂ hconfig
  generalize hp₁ : plan host₁ args = v₁ at hplan
  generalize hp₂ : plan host₂ args = v₂ at hplan
  cases hplan with
  | failed e =>
    rw [run_failed hp₁ hrun₁, run_failed hp₂ hrun₂]
    exact ⟨rfl, none, rfl, rfl⟩
  | left message _ => exact (run_panicked hp₁ hrun₁).elim
  | right _ message => exact (run_panicked hp₂ hrun₂).elim
  | @ok p₁ p₂ hmatch =>
    obtain ⟨o₁, hasked₁, rfl⟩ := (run_planned hp₁).mp hrun₁
    obtain ⟨o₂, hasked₂, rfl⟩ := (run_planned hp₂).mp hrun₂
    have hblame₁ := (all_runs (inventories_blame p₁.config p₁.servers) hasked₁).2
    have hblame₂ := (all_runs (inventories_blame p₂.config p₂.servers) hasked₂).2
    have hresult := recordAll_match hmatch.config hmatch.ns hblame₁ (hmatch.servers ▸ hblame₂)
      (hsame p₁ p₂ o₁ o₂ hp₁ hp₂ hasked₁ hasked₂) (.new p₁.ns.name)
    rw [finish_written, finish_written, ← hmatch.ns.name, ← hmatch.servers, ← hresult,
      ← written_match hmatch]
    exact ⟨rfl, _, rfl, rfl⟩

end Flow

section Refused

def guarded (token : Text) : TomlConfig where
  servers := List.toAList [⟨"db".toList, {
    command := some "db-mcp".toList
    env := List.toAList [⟨"TOKEN".toList, token⟩] }⟩]
  namespaces := List.toAList [⟨"default".toList, { servers := ["db".toList] }⟩]

def hostOf (token : Text) : Host where
  iteration := .ascending
  fromStr _ := .ok (guarded token)
  readToString _ := .ok []
  serde := serdeJson
  disk := emptyDisk
  now := []

def checkDb : CheckArgs where
  namespaceArg := []
  configPath := some "fanin.toml".toList
  serverFilter := some "db".toList
  refreshCache := false
  noCacheWrite := false
  json := true

def refusing (message : Text) : (op : Op) → Option (Ans op)
  | .acquire _ | .release _ | .connectBegin _ | .connectEnd _ | .registerSecret _ => some ()
  | .guardEntry _ => some (0 : ℕ)
  | .entriesGet _ => some none
  | .spawnTransport _ => some (.error message)
  | _ => none

theorem guarded_match (a b : Text) : ConfigsMatch (guarded a) (guarded b) := by
  refine ⟨same_refl rfl, fun s => ?_⟩
  have hlookup : ∀ token, (guarded token).servers.lookup s =
      if s = "db".toList then some {
        command := some "db-mcp".toList
        env := List.toAList [⟨"TOKEN".toList, token⟩] } else none := by
    intro token
    by_cases hs : s = "db".toList
    · subst hs
      rfl
    · rw [if_neg hs]
      exact AList.lookup_eq_none.mpr fun hmem => hs (List.mem_singleton.mp hmem)
  rw [hlookup a, hlookup b]
  split_ifs
  · exact .some ⟨rfl, rfl, rfl, rfl, rfl, rfl, rfl, fun _ => Iff.rfl, fun _ => Iff.rfl⟩
  · exact .none

theorem guarded_valid (token : Text) : Valid (guarded token) [] :=
  valid_match (guarded_match [] token)
    (valid_alone rfl rfl ⟨by decide, List.all_eq_true.mp (by decide)⟩
      ⟨by decide, Or.inl ⟨by decide, by decide⟩⟩ rfl ⟨_, rfl, by decide, by decide⟩)

def dbNamespace : ActiveNamespace := ⟨"default".toList, {"db".toList}, ∅⟩

theorem hostOf_loads (token : Text) :
    loadConfig (hostOf token) checkDb = .ok (guarded token) := by
  have hvalid : validate (hostOf token).iteration (guarded token) checkDb.namespaceArg = .ok () :=
    (validate_ok _).mpr (guarded_valid token)
  have hloads : Loads (hostOf token) checkDb (guarded token) := fun _ _ => ⟨[], rfl, rfl⟩
  rw [loadConfig_file rfl hloads, hvalid]

theorem hostOf_plan (token : Text) :
    plan (hostOf token) checkDb = .ok ⟨guarded token, dbNamespace, ["db".toList]⟩ := by
  rw [plan, hostOf_loads]
  rfl

def refusal (token : Text) : Text := "cannot run db-mcp with TOKEN=".toList ++ token

/-- Asked with this token, the server is refused in words that quote it. -/
def Refused (token : Text) : Prop :=
  (evaluate (refusing (refusal token)) (inventories (guarded token) ["db".toList])).map Prod.snd =
    some [.error (.upstreamConnect "db".toList (refusal token))]

theorem alpha_refused : Refused "alpha".toList := rfl

theorem beta_refused : Refused "beta".toList := rfl

theorem refused_outcomes {token : Text} (h : Refused token) {p : Plan}
    {o : List (Outcome (List Tool))} {t : List (Exchange registryOps)}
    (hp : plan (hostOf token) checkDb = .ok p)
    (ho : Runs (answering (refusing (refusal token))) (inventories p.config p.servers) () t o ()) :
    o = [.error (.upstreamConnect "db".toList (refusal token))] := by
  rw [hostOf_plan] at hp
  obtain rfl := Except.ok.inj hp
  have hevaluated := runs_evaluated.mp ⟨t, ho⟩
  rw [h] at hevaluated
  exact (Option.some.inj hevaluated).symm

theorem no_credential_flow_refused :
    ∃ t₁ t₂ out₁ out₂,
      Runs (answering (refusing (refusal "alpha".toList))) (run (hostOf "alpha".toList) checkDb)
        () t₁ out₁ () ∧
      Runs (answering (refusing (refusal "beta".toList))) (run (hostOf "beta".toList) checkDb)
        () t₂ out₂ () ∧
      out₁.1 = out₂.1 := by
  have hloads : ∀ token, Loads (hostOf token) checkDb (guarded token) :=
    fun _ _ _ => ⟨[], rfl, rfl⟩
  obtain ⟨t₁, hasked₁⟩ := runs_evaluated.mpr alpha_refused
  obtain ⟨t₂, hasked₂⟩ := runs_evaluated.mpr beta_refused
  have hrun₁ := (run_planned (hostOf_plan "alpha".toList)).mpr ⟨_, hasked₁, rfl⟩
  have hrun₂ := (run_planned (hostOf_plan "beta".toList)).mpr ⟨_, hasked₂, rfl⟩
  refine ⟨t₁, t₂, _, _, hrun₁, hrun₂, (no_credential_flow (hloads _) (hloads _)
    (guarded_match _ _) hrun₁ hrun₂ fun p₁ p₂ o₁ o₂ hp₁ hp₂ ho₁ ho₂ => ?_).1⟩
  rw [refused_outcomes alpha_refused hp₁ ho₁, refused_outcomes beta_refused hp₂ ho₂]
  exact .cons ⟨rfl, rfl⟩ .nil

end Refused

end FaninMcp.NoCredentialFlow
