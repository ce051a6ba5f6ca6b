import FaninMcp.NamespaceResolver

/-!
# Startup validation

The checks of a parsed configuration run in a fixed order, and inside one check
in the order a hash table is iterated in. That order decides which error is
reported, never whether one is.
-/

set_option autoImplicit false

namespace FaninMcp.ConfigValidation
open Foundation.RustText FaninMcp.ConfigModel FaninMcp.NamespaceResolver

/-- The order in which hash sets are iterated: every member once, in no
particular place. -/
structure HashIteration where
  order : Finset Text → List Text
  nodup : ∀ set, (order set).Nodup
  mem_order : ∀ set text, text ∈ order set ↔ text ∈ set

def HashIteration.ascending : HashIteration where
  order set := set.sort (· ≤ ·)
  nodup set := set.sort_nodup _
  mem_order set _ := set.mem_sort _

/-- How a validation stops: by returning an error, or by a panic. -/
inductive Failure where
  | returned (error : StartupError)
  | panicked (message : Text)
  deriving DecidableEq

def checkEach {α : Type} (check : α → Except Failure Unit) : List α → Except Failure Unit
  | [] => .ok ()
  | a::rest =>
    match check a with
    | .error e => .error e
    | .ok () => checkEach check rest

def returned : Except StartupError Unit → Except Failure Unit := Except.mapError Failure.returned

def stdioTransport : Text := "stdio".toList
def httpTransport : Text := "streamable-http".toList

def checkTransport (entry : Σ _ : Text, ServerConfig) : Except Failure Unit :=
  let transport := entry.2.transportKind
  if transport = stdioTransport ∨ transport = httpTransport then .ok ()
  else .error (.returned (.unsupportedTransport entry.1 transport))

def filled (field : Option Text) : Bool := (field.map trim).elim false (fun text => !text.isEmpty)

def checkTransportFields (entry : Σ _ : Text, ServerConfig) : Except Failure Unit :=
  let server := entry.2
  if server.cwd.map trim = some [] then .error (.returned (.emptyCwd entry.1))
  else if server.transportKind = stdioTransport then
    if filled server.command then .ok ()
    else .error (.returned (.stdioServerMissingCommand entry.1))
  else if server.transportKind = httpTransport then
    if filled server.endpoint then .ok ()
    else .error (.returned (.httpServerMissingEndpoint entry.1))
  else .error (.panicked
    "internal error: entered unreachable code: unsupported transports are rejected above".toList)

def checkEffectiveServer (config : TomlConfig) (name server : Text) : Except Failure Unit :=
  if server ∈ config.servers then .ok ()
  else .error (.returned (.effectiveServerUnknown name server))

def checkFilterKey (resolved : ResolvedNamespace) (name server : Text) : Except Failure Unit :=
  if server ∈ resolved.servers then .ok ()
  else .error (.returned (.toolFilterUnknownServer name server))

def checkNamespace (it : HashIteration) (config : TomlConfig) (name : Text) : Except Failure Unit :=
  match resolveNamespace config name with
  | .error e => .error (.returned e)
  | .ok resolved =>
    match checkEach (checkEffectiveServer config name) (it.order resolved.servers) with
    | .error e => .error e
    | .ok () => checkEach (checkFilterKey resolved name) resolved.tools.keys

def checkActive (config : TomlConfig) (selected : Text) : Except Failure Unit :=
  let active := selectedNamespace selected
  if active ∈ config.namespaces then .ok ()
  else .error (.returned (.unknownNamespace active))

def validate (it : HashIteration) (config : TomlConfig) (selected : Text) : Except Failure Unit := do
  checkEach (fun name => returned (validateServerName name)) config.servers.keys
  checkEach checkTransport config.servers.entries
  checkEach checkTransportFields config.servers.entries
  checkActive config selected
  checkEach (checkNamespace it config) config.namespaces.keys

/-- `contents` is what reading the file gave and `fromStr` the TOML parser. -/
def loadAndValidate (it : HashIteration) (fromStr : Text → Except Text TomlConfig)
    (contents : Except Text Text) (selected : Text) : Except Failure TomlConfig :=
  match contents with
  | .error e => .error (.returned (.readConfig e))
  | .ok contents =>
    match fromStr contents with
    | .error e => .error (.returned (.parseConfig e))
    | .ok config => (validate it config selected).map (fun () => config)

theorem checkEach_ok {α : Type} {check : α → Except Failure Unit} {items : List α} :
    checkEach check items = .ok () ↔ ∀ a ∈ items, check a = .ok () := by
  induction items with
  | nil => simp [checkEach]
  | cons a rest ih =>
    rw [checkEach, List.forall_mem_cons]
    cases h : check a with
    | error e => simp
    | ok u => simpa using ih

theorem returned_ok {check : Except StartupError Unit} :
    returned check = .ok () ↔ check = .ok () := by
  cases check <;> simp [returned, Except.mapError]

structure ServerReady (server : ServerConfig) : Prop where
  cwd : server.cwd.map trim ≠ some []
  fields : server.transportKind = stdioTransport ∧ filled server.command = true ∨
    server.transportKind = httpTransport ∧ filled server.endpoint = true

theorem stdio_ne_http : stdioTransport ≠ httpTransport := by decide

theorem checkTransport_ok {entry : Σ _ : Text, ServerConfig} :
    checkTransport entry = .ok () ↔
      entry.2.transportKind = stdioTransport ∨ entry.2.transportKind = httpTransport := by
  simp only [checkTransport]
  split_ifs with h
  · simpa using h
  · simpa using h

theorem checkTransportFields_ok {entry : Σ _ : Text, ServerConfig} :
    checkTransportFields entry = .ok () ↔ ServerReady entry.2 := by
  simp only [checkTransportFields]
  split_ifs with hcwd hstdio hcommand hhttp hendpoint
  · simp only [false_iff]
    exact fun h => h.cwd hcwd
  · exact iff_of_true rfl ⟨hcwd, Or.inl ⟨hstdio, hcommand⟩⟩
  · simp only [false_iff]
    rintro ⟨_, ⟨_, h⟩ | ⟨h, _⟩⟩
    · exact hcommand h
    · exact stdio_ne_http (hstdio.symm.trans h)
  · exact iff_of_true rfl ⟨hcwd, Or.inr ⟨hhttp, hendpoint⟩⟩
  · simp only [false_iff]
    rintro ⟨_, ⟨h, _⟩ | ⟨_, h⟩⟩
    · exact hstdio h
    · exact hendpoint h
  · simp only [false_iff]
    rintro ⟨_, ⟨h, _⟩ | ⟨h, _⟩⟩
    · exact hstdio h
    · exact hhttp h

def NamespaceReady (config : TomlConfig) (name : Text) : Prop :=
  ∃ acl, resolveNamespace config name = .ok acl ∧ (∀ s ∈ acl.servers, s ∈ config.servers) ∧
    ∀ s ∈ acl.tools, s ∈ acl.servers

theorem checkNamespace_ok {it : HashIteration} {config : TomlConfig} {name : Text} :
    checkNamespace it config name = .ok () ↔ NamespaceReady config name := by
  rw [checkNamespace, NamespaceReady]
  cases hres : resolveNamespace config name with
  | error e => simp
  | ok acl =>
    have hservers : checkEach (checkEffectiveServer config name) (it.order acl.servers) = .ok () ↔
        ∀ s ∈ acl.servers, s ∈ config.servers := by
      simp only [checkEach_ok, it.mem_order]
      refine forall₂_congr fun s _ => ?_
      by_cases h : s ∈ config.servers <;> simp [checkEffectiveServer, h]
    have hkeys : checkEach (checkFilterKey acl name) acl.tools.keys = .ok () ↔
        ∀ s ∈ acl.tools, s ∈ acl.servers := by
      simp only [checkEach_ok, AList.mem_keys]
      refine forall₂_congr fun s _ => ?_
      by_cases h : s ∈ acl.servers <;> simp [checkFilterKey, h]
    simp only [Except.ok.injEq, exists_eq_left']
    rw [← hservers, ← hkeys]
    cases checkEach (checkEffectiveServer config name) (it.order acl.servers) with
    | error e => simp
    | ok u => simp

structure Valid (config : TomlConfig) (selected : Text) : Prop where
  names : ∀ s ∈ config.servers, s ≠ [] ∧ ∀ c ∈ s, isServerNameChar c = true
  servers : ∀ entry ∈ config.servers.entries, ServerReady entry.2
  active : selectedNamespace selected ∈ config.namespaces
  namespaces : ∀ name ∈ config.namespaces, NamespaceReady config name

theorem valid_alone {config : TomlConfig} {server name selected : Text}
    {serverConfig : ServerConfig} (hservers : config.servers.entries = [⟨server, serverConfig⟩])
    (hnamespaces : config.namespaces.keys = [name])
    (hserver : server ≠ [] ∧ ∀ c ∈ server, isServerNameChar c = true)
    (hready : ServerReady serverConfig) (hselected : selectedNamespace selected = name)
    (hname : NamespaceReady config name) : Valid config selected := by
  have hkeys : config.servers.keys = [server] := congrArg List.keys hservers
  refine ⟨fun s hs => ?_, fun entry he => ?_, ?_, fun other hother => ?_⟩
  · rw [AList.mem_keys, hkeys, List.mem_singleton] at hs
    exact hs ▸ hserver
  · rw [hservers, List.mem_singleton] at he
    exact he ▸ hready
  · rw [AList.mem_keys, hnamespaces, hselected]
    exact List.mem_singleton_self name
  · rw [AList.mem_keys, hnamespaces, List.mem_singleton] at hother
    exact hother ▸ hname

theorem bind_ok {a b : Except Failure Unit} :
    (do a; b) = .ok () ↔ a = .ok () ∧ b = .ok () := by
  cases a with
  | error e => simp [bind, Except.bind]
  | ok u => simp [bind, Except.bind]

theorem validate_ok (it : HashIteration) {config : TomlConfig} {selected : Text} :
    validate it config selected = .ok () ↔ Valid config selected := by
  rw [validate]
  simp only [bind_ok, checkEach_ok, returned_ok, validateServerName_ok, checkTransport_ok,
    checkTransportFields_ok, checkNamespace_ok]
  have hactive : checkActive config selected = .ok () ↔
      selectedNamespace selected ∈ config.namespaces := by
    by_cases h : selectedNamespace selected ∈ config.namespaces <;> simp [checkActive, h]
  rw [hactive]
  constructor
  · rintro ⟨hnames, _, hservers, hactive, hns⟩
    exact ⟨hnames, hservers, hactive, hns⟩
  · rintro ⟨hnames, hservers, hactive, hns⟩
    refine ⟨hnames, fun entry he => ?_, hservers, hactive, hns⟩
    exact (hservers entry he).fields.imp And.left And.left

end FaninMcp.ConfigValidation
