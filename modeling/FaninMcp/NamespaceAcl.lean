import FaninMcp.NamespaceResolver

/-!
# The active namespace

The access-control list a session runs under. Every permission decision of the
server is one of its queries, so its meaning is stated against the inheritance
graph alone: what the reachable namespaces list and what they filter.
-/

set_option autoImplicit false

namespace FaninMcp.NamespaceAcl
open Foundation.RustText FaninMcp.ConfigModel FaninMcp.NamespaceResolver

/-- `tools` has a key exactly for the servers under a filter. -/
structure ActiveNamespace where
  name : Text
  servers : Finset Text
  tools : TextMap (Finset Text)

def ActiveNamespace.new (config : TomlConfig) (selected : Text) : Except Text ActiveNamespace :=
  let name := selectedNamespace selected
  match resolveNamespace config name with
  | .ok resolved => .ok ⟨name, resolved.servers, resolved.tools⟩
  | .error error => .error ("ActiveNamespace requires a validated config: ".toList ++ error.display)

def ActiveNamespace.isServerAllowed (ns : ActiveNamespace) (server : Text) : Bool :=
  decide (server ∈ ns.servers)

def ActiveNamespace.isToolAllowed (ns : ActiveNamespace) (server tool : Text) : Bool :=
  if !ns.isServerAllowed server then false
  else (ns.tools.lookup server).elim true (fun list => decide (tool ∈ list))

def ActiveNamespace.allowedServers (ns : ActiveNamespace) : List Text := ns.servers.sort (· ≤ ·)

theorem mem_allowedServers (ns : ActiveNamespace) (server : Text) :
    server ∈ ns.allowedServers ↔ ns.isServerAllowed server = true := by
  simp [ActiveNamespace.allowedServers, ActiveNamespace.isServerAllowed]

theorem isToolAllowed_server {ns : ActiveNamespace} {server tool : Text}
    (h : ns.isToolAllowed server tool = true) : ns.isServerAllowed server = true := by
  cases hs : ns.isServerAllowed server with
  | true => rfl
  | false => simp [ActiveNamespace.isToolAllowed, hs] at h

section Meaning
variable (config : TomlConfig) (n : Text)

def Visible (s : Text) : Prop := ∃ m, Reaches config n m ∧ ListsServer config m s

def Permitted (s t : Text) : Prop :=
  ∀ m, Reaches config n m → ∀ listed, toolEntry config m s = some listed → t ∈ listed

end Meaning

section Composed
variable {config : TomlConfig} {n : Text} {acl : ResolvedNamespace}

theorem composed_visible (h : Composes config {m | Reaches config n m} acl) (name s : Text) :
    (ActiveNamespace.mk name acl.servers acl.tools).isServerAllowed s = true ↔
      Visible config n s := by
  simpa [ActiveNamespace.isServerAllowed, Visible] using h.servers s

theorem composed_permitted (h : Composes config {m | Reaches config n m} acl) (name s t : Text) :
    (ActiveNamespace.mk name acl.servers acl.tools).isToolAllowed s t = true ↔
      Visible config n s ∧ Permitted config n s t := by
  rw [← composed_visible h name s]
  cases hs : (ActiveNamespace.mk name acl.servers acl.tools).isServerAllowed s with
  | false => simp [ActiveNamespace.isToolAllowed, hs]
  | true =>
    cases hf : acl.tools.lookup s with
    | none =>
      have habsent := h.filters.absent s hf
      have hperm : Permitted config n s t := by
        intro m hm listed hl
        rw [habsent m hm] at hl
        cases hl
      simp [ActiveNamespace.isToolAllowed, hs, hf, hperm]
    | some tools =>
      have hmem := (h.filters.present s tools hf).2 t
      simpa [ActiveNamespace.isToolAllowed, hs, hf, Permitted] using hmem

end Composed

theorem selectedNamespace_self {n : Text} (hn : n ≠ []) : selectedNamespace n = n := by
  cases n with
  | nil => exact absurd rfl hn
  | cons c cs => rfl

theorem new_of_resolved {config : TomlConfig} {n : Text} {acl : ResolvedNamespace} (hn : n ≠ [])
    (h : resolveNamespace config n = .ok acl) :
    ActiveNamespace.new config n = .ok ⟨n, acl.servers, acl.tools⟩ := by
  simp only [ActiveNamespace.new, selectedNamespace_self hn, h]

/-- The session's permissions are those of the inheritance graph: restrictions
found anywhere below are never lost, an empty intersection denies every tool,
and a server no reachable namespace filters has all its tools. -/
theorem effective_acl (config : TomlConfig) (n : Text) (hn : n ≠ []) (acl : ResolvedNamespace)
    (h : resolveNamespace config n = .ok acl) :
    ∃ active, ActiveNamespace.new config n = .ok active ∧
      (∀ s, active.isServerAllowed s = true ↔ Visible config n s) ∧
      (∀ s t, active.isToolAllowed s t = true ↔ Visible config n s ∧ Permitted config n s t) ∧
      (∀ m s t listed, Reaches config n m → toolEntry config m s = some listed → t ∉ listed →
        active.isToolAllowed s t = false) ∧
      (∀ s, (∀ t, ∃ m listed, Reaches config n m ∧ toolEntry config m s = some listed ∧ t ∉ listed) →
        ∀ t, active.isToolAllowed s t = false) ∧
      (∀ s, Visible config n s → (∀ m, Reaches config n m → toolEntry config m s = none) →
        ∀ t, active.isToolAllowed s t = true) := by
  have hc := resolveNamespace_composes h
  have hdeny : ∀ m s t listed, Reaches config n m → toolEntry config m s = some listed →
      t ∉ listed → (ActiveNamespace.mk n acl.servers acl.tools).isToolAllowed s t = false := by
    intro m s t listed hm hl ht
    rw [Bool.eq_false_iff, ne_eq, composed_permitted hc]
    exact fun hp => ht (hp.2 m hm listed hl)
  refine ⟨⟨n, acl.servers, acl.tools⟩, new_of_resolved hn h, composed_visible hc n,
    composed_permitted hc n, hdeny, ?_, ?_⟩
  · intro s hs t
    obtain ⟨m, listed, hm, hl, ht⟩ := hs t
    exact hdeny m s t listed hm hl ht
  · intro s hv hnone t
    rw [composed_permitted hc]
    refine ⟨hv, fun m hm listed hl => ?_⟩
    rw [hnone m hm] at hl
    cases hl

/-- A diamond: `top` extends `left` and `right`, which both extend `base`. -/
def diamond : TomlConfig where
  namespaces := List.toAList [
    ⟨"base".toList, { servers := ["db".toList],
                      tools := List.toAList [⟨"db".toList, ["query".toList, "drop".toList]⟩] }⟩,
    ⟨"left".toList, { «extends» := ["base".toList],
                      tools := List.toAList [⟨"db".toList, ["query".toList]⟩] }⟩,
    ⟨"right".toList, { «extends» := ["base".toList] }⟩,
    ⟨"top".toList, { «extends» := ["left".toList, "right".toList] }⟩]

theorem effective_acl_diamond :
    ∃ active, ActiveNamespace.new diamond "top".toList = .ok active ∧
      ∀ s t, active.isToolAllowed s t = true ↔
        Visible diamond "top".toList s ∧ Permitted diamond "top".toList s t := by
  obtain ⟨active, hnew, _, htool, _⟩ := effective_acl diamond "top".toList (by decide) _ rfl
  exact ⟨active, hnew, htool⟩

end FaninMcp.NamespaceAcl
