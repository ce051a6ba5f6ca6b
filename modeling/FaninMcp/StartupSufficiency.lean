import FaninMcp.CapabilityCache
import FaninMcp.MetaAcl

/-!
# What startup validation buys

Once a configuration has been accepted, the modules that serve it rely on it
without looking again: the namespace they panic on resolves, the transport they
take for granted is one of two, and the servers they look up are configured.
-/

set_option autoImplicit false

namespace FaninMcp.StartupSufficiency
open Foundation.RustText Foundation.JsonText Foundation.AsyncPrograms FaninMcp.ConfigModel
  FaninMcp.ErrorModel FaninMcp.NamespaceResolver FaninMcp.ConfigValidation FaninMcp.NamespaceAcl
  FaninMcp.CapabilityCache FaninMcp.RegistryModel FaninMcp.RegistryProtocol FaninMcp.RegistryWalk
  FaninMcp.MetaTools FaninMcp.MetaAcl

section Transport

/-- The operation is not the panic of an arm that was thought impossible. -/
def Expected (op : Op) : Prop := ∀ message, op ≠ .unreachable message

theorem expected_resolution {op : Op} (h : isResolution op = true) : Expected op := by
  rintro message rfl
  cases h

variable {server : Text} {config : ServerConfig} {env headers : TextMap Text}

theorem connect_expected
    (h : config.transportKind = stdioTransport ∨ config.transportKind = httpTransport) :
    (connect server config env headers).All Expected (fun _ => True) := by
  refine all_mono ?_ (fun _ _ => trivial)
    (connect_starts (E := fun _ => True) (fun _ => trivial) config env headers)
  rintro _ hop message rfl
  exact h.elim hop.1 hop.2

theorem filled_iff {field : Option Text} :
    filled field = true ↔ ∃ text, field = some text ∧ trim text ≠ [] := by
  cases field with
  | none => simp [filled]
  | some text => simp [filled]

end Transport

section Namespaces
variable {config : TomlConfig} {active : ActiveNamespace}

theorem listTools_known (hc : Covers config active) (arguments : Option JsonObject)
    (hs : ∀ s, stringArgument arguments "server".toList = some s →
      active.isServerAllowed s = true) :
    (handleListTools (.withRegistry config active) arguments).All (fun _ => True)
      (fun reply => ∀ s, reply ≠ .failed (.unknownServer s)) := by
  have hadmitted : ∀ servers, (∀ s ∈ servers, active.isServerAllowed s = true) →
      (listRows config active servers []).All (fun _ => True)
        (fun reply => ∀ s, reply ≠ .failed (.unknownServer s)) := by
    intro servers hall
    apply all_mono (fun _ _ => trivial) _ (listRows_all hc servers hall)
    rintro _ ⟨_, hdenied⟩ s rfl
    exact hdenied ⟨_, rfl, rfl⟩
  rw [handleListTools]
  simp only [Aggregator.withRegistry]
  cases harg : stringArgument arguments "server".toList with
  | none => exact hadmitted _ fun s hs => (mem_allowedServers active s).mp hs
  | some server =>
    have hallowed := hs server harg
    have hhas : hasServer config server = true := by simpa [hasServer] using hc server hallowed
    simp only [hhas, hallowed, Bool.not_true, Bool.false_eq_true, if_false]
    exact hadmitted [server] (by simpa using hallowed)

theorem fingerprintServers_names (hc : Covers config active) :
    (fingerprintServers config active).map FingerprintServer.name = active.allowedServers := by
  have hall : ∀ s ∈ active.allowedServers, s ∈ config.servers := fun s hs =>
    hc s ((mem_allowedServers active s).mp hs)
  rw [fingerprintServers]
  generalize active.allowedServers = names at hall ⊢
  induction names with
  | nil => rfl
  | cons s rest ih =>
    obtain ⟨hs, hrest⟩ := List.forall_mem_cons.mp hall
    obtain ⟨server, hserver⟩ := Option.isSome_iff_exists.mp (AList.lookup_isSome.mpr hs)
    simp only [List.filterMap_cons, hserver, Option.map_some, List.map_cons, ih hrest]
    rfl

end Namespaces

/-- What the serving modules need of a namespace they are given. -/
structure Servable (config : TomlConfig) (active : ActiveNamespace) : Prop where
  declared : ∀ s, active.isServerAllowed s = true → s ∈ config.servers
  filtered : ∀ s ∈ active.tools, active.isServerAllowed s = true
  listed : ∀ arguments, (∀ s, stringArgument arguments "server".toList = some s →
      active.isServerAllowed s = true) →
    (handleListTools (.withRegistry config active) arguments).All (fun _ => True)
      (fun reply => ∀ s, reply ≠ .failed (.unknownServer s))
  fingerprinted : (fingerprintServers config active).map FingerprintServer.name =
    active.allowedServers

structure Connectable (server : Text) (config : ServerConfig) : Prop where
  reachable : ∀ env headers, (connect server config env headers).All Expected (fun _ => True)
  required : config.transportKind = stdioTransport ∧
      (∃ command, config.command = some command ∧ trim command ≠ []) ∨
    config.transportKind = httpTransport ∧
      (∃ endpoint, config.endpoint = some endpoint ∧ trim endpoint ≠ [])

section Acceptance
variable {config : TomlConfig}

theorem ready_servable {name : Text} {acl : ResolvedNamespace}
    (hservers : ∀ s ∈ acl.servers, s ∈ config.servers) (hkeys : ∀ s ∈ acl.tools, s ∈ acl.servers) :
    Servable config ⟨name, acl.servers, acl.tools⟩ := by
  have hc : Covers config ⟨name, acl.servers, acl.tools⟩ := by
    intro s hs
    exact hservers s (of_decide_eq_true hs)
  constructor
  · exact hc
  · intro s hs
    exact decide_eq_true (hkeys s hs)
  · exact listTools_known hc
  · exact fingerprintServers_names hc

theorem ready_connectable (server : Text) {serverConfig : ServerConfig}
    (h : ServerReady serverConfig) : Connectable server serverConfig := by
  constructor
  · intro env headers
    exact connect_expected (h.fields.imp And.left And.left)
  · have hfields := h.fields
    rw [filled_iff, filled_iff] at hfields
    exact hfields

/-- An accepted configuration can be served, under the selected namespace and
under every other it declares. -/
theorem validation_suffices (it : HashIteration) (config : TomlConfig) (selected : Text)
    (h : validate it config selected = .ok ()) :
    (∃ active, ActiveNamespace.new config selected = .ok active ∧ Servable config active) ∧
    (∀ name ∈ config.namespaces, ∃ acl, resolveNamespace config name = .ok acl ∧
      Servable config ⟨name, acl.servers, acl.tools⟩) ∧
    ∀ server serverConfig, config.servers.lookup server = some serverConfig →
      Connectable server serverConfig := by
  have hvalid := (validate_ok it).mp h
  have hnamespaces : ∀ name ∈ config.namespaces, ∃ acl, resolveNamespace config name = .ok acl ∧
      Servable config ⟨name, acl.servers, acl.tools⟩ := by
    intro name hname
    obtain ⟨acl, hok, hservers, hkeys⟩ := hvalid.namespaces name hname
    exact ⟨acl, hok, ready_servable hservers hkeys⟩
  refine ⟨?_, hnamespaces, ?_⟩
  · obtain ⟨acl, hok, hserve⟩ := hnamespaces _ hvalid.active
    refine ⟨⟨selectedNamespace selected, acl.servers, acl.tools⟩, ?_, hserve⟩
    simp only [ActiveNamespace.new, hok]
  · intro server serverConfig hlookup
    have hentry := AList.mem_lookup_iff.mp hlookup
    exact ready_connectable server (hvalid.servers _ hentry)

end Acceptance

/-- `ops` inherits its filter and restricts it further. -/
def inherited : TomlConfig where
  servers := List.toAList [
    ⟨"db".toList, { command := some "db-mcp".toList }⟩,
    ⟨"web".toList, { transport := some "streamable-http".toList,
                     endpoint := some "http://localhost/mcp".toList }⟩]
  namespaces := List.toAList [
    ⟨"base".toList, { servers := ["db".toList],
                      tools := List.toAList [⟨"db".toList, ["query".toList, "drop".toList]⟩] }⟩,
    ⟨"default".toList, { servers := ["web".toList], «extends» := ["base".toList],
                         tools := List.toAList [⟨"db".toList, ["query".toList]⟩] }⟩]

theorem inherited_valid : Valid inherited [] := by
  have hready : ∀ name ∈ ["base".toList, "default".toList], ∃ acl,
      resolveNamespace inherited name = .ok acl ∧ (∀ s ∈ acl.servers, s ∈ inherited.servers) ∧
        ∀ s ∈ acl.tools.keys, s ∈ acl.servers := by
    intro name hname
    rcases List.mem_pair.mp hname with rfl | rfl
    · exact ⟨_, rfl, by decide, by decide⟩
    · exact ⟨_, rfl, by decide, by decide⟩
  constructor
  · show ∀ s ∈ ["db".toList, "web".toList], s ≠ [] ∧ ∀ c ∈ s, isServerNameChar c = true
    intro s hs
    rcases List.mem_pair.mp hs with rfl | rfl
    · exact ⟨by decide, List.all_eq_true.mp (by decide)⟩
    · exact ⟨by decide, List.all_eq_true.mp (by decide)⟩
  · intro entry hentry
    rcases List.mem_pair.mp hentry with rfl | rfl
    · exact ⟨by decide, Or.inl ⟨by decide, by decide⟩⟩
    · exact ⟨by decide, Or.inr ⟨by decide, by decide⟩⟩
  · show defaultNamespace ∈ ["base".toList, "default".toList]
    decide
  · exact hready

theorem validation_suffices_inherited :
    ∃ active, ActiveNamespace.new inherited [] = .ok active ∧ Servable inherited active :=
  (validation_suffices .ascending inherited [] ((validate_ok _).mpr inherited_valid)).1

end FaninMcp.StartupSufficiency
