import FaninMcp.NamespaceAcl

/-!
# Namespaces as maps

Two configurations whose namespaces are the same as maps, in whatever order their
entries stand, resolve alike. The resolver reads a table by its keys, but merges one
into another entry by entry, so what it builds are again the same maps. The active
namespaces then allow, filter and show the same.
-/

set_option autoImplicit false

namespace FaninMcp.NamespaceMaps
open Foundation.RustText FaninMcp.ConfigModel FaninMcp.NamespaceResolver FaninMcp.NamespaceAcl

structure SameNamespace (a b : NamespaceConfig) : Prop where
  servers : a.servers = b.servers
  parents : a.extends = b.extends
  tools : ∀ s, a.tools.lookup s = b.tools.lookup s

def SameNamespaces (c₁ c₂ : TomlConfig) : Prop :=
  ∀ name, Option.Rel SameNamespace (c₁.namespaces.lookup name) (c₂.namespaces.lookup name)

structure SameAcl (a b : ResolvedNamespace) : Prop where
  servers : a.servers = b.servers
  tools : ∀ s, a.tools.lookup s = b.tools.lookup s

structure SameTables (st st' : ResolverState) : Prop where
  states : st.states = st'.states
  resolved : ∀ name, Option.Rel SameAcl (st.resolved.lookup name) (st'.resolved.lookup name)

inductive SameResolution : Except StartupError (ResolvedNamespace × ResolverState) →
    Except StartupError (ResolvedNamespace × ResolverState) → Prop
  | failed (e : StartupError) : SameResolution (.error e) (.error e)
  | resolved {a b : ResolvedNamespace} {st st' : ResolverState} : SameAcl a b → SameTables st st' →
      SameResolution (.ok (a, st)) (.ok (b, st'))

theorem SameNamespace.symm {a b : NamespaceConfig} (h : SameNamespace a b) : SameNamespace b a :=
  ⟨h.servers.symm, h.parents.symm, fun s => (h.tools s).symm⟩

theorem rel_symm {α : Type} {R : α → α → Prop} (hR : ∀ a b, R a b → R b a) {x y : Option α}
    (h : Option.Rel R x y) : Option.Rel R y x := by
  cases h with
  | none => exact .none
  | some hab => exact .some (hR _ _ hab)

/-- Servers are not looked at. -/
theorem same_refl {c₁ c₂ : TomlConfig} (h : c₁.namespaces = c₂.namespaces) :
    SameNamespaces c₁ c₂ := by
  intro name
  rw [h]
  cases c₂.namespaces.lookup name with
  | none => exact .none
  | some ns => exact .some ⟨rfl, rfl, fun _ => rfl⟩

theorem declared_same {c₁ c₂ : TomlConfig} (h : SameNamespaces c₁ c₂) (name : Text) :
    name ∈ c₁.namespaces ↔ name ∈ c₂.namespaces := by
  rw [← AList.lookup_isSome, ← AList.lookup_isSome]
  have hns := h name
  generalize c₁.namespaces.lookup name = x at hns ⊢
  generalize c₂.namespaces.lookup name = y at hns ⊢
  cases hns <;> rfl

theorem filtered_same {a b : ResolvedNamespace} (h : SameAcl a b) (s : Text) :
    s ∈ a.tools ↔ s ∈ b.tools := by
  rw [← AList.lookup_isSome, ← AList.lookup_isSome, h.tools]

section Merging
variable {a a' b b' : ResolvedNamespace}

theorem mergeToolFilters_same {target target' : TextMap (Finset Text)}
    {incoming incoming' : List (Σ _ : Text, Finset Text)} (hn : incoming.NodupKeys)
    (hn' : incoming'.NodupKeys) (htarget : ∀ s, target.lookup s = target'.lookup s)
    (hincoming : ∀ s, incoming.dlookup s = incoming'.dlookup s) (s : Text) :
    (mergeToolFilters target incoming).lookup s = (mergeToolFilters target' incoming').lookup s := by
  rw [lookup_mergeToolFilters _ _ hn, lookup_mergeToolFilters _ _ hn', htarget, hincoming]

theorem mergeResolvedNamespace_same (ha : SameAcl a a') (hb : SameAcl b b') :
    SameAcl (mergeResolvedNamespace a b) (mergeResolvedNamespace a' b') where
  servers := congrArg₂ (· ∪ ·) ha.servers hb.servers
  tools := mergeToolFilters_same b.tools.nodupKeys b'.tools.nodupKeys ha.tools hb.tools

theorem mergeOwn_same (ha : SameAcl a a') {ns ns' : NamespaceConfig} (h : SameNamespace ns ns') :
    SameAcl (mergeOwn a ns) (mergeOwn a' ns') where
  servers := by rw [mergeOwn, mergeOwn, ha.servers, h.servers]
  tools := mergeToolFilters_same (ownFilters_nodup ns) (ownFilters_nodup ns') ha.tools fun s => by
    change (ownFilters ns).dlookup s = (ownFilters ns').dlookup s
    rw [ownFilters_lookup, ownFilters_lookup, h.tools]

end Merging

section Resolving
variable {c₁ c₂ : TomlConfig} {st st' : ResolverState}

theorem resolved_insert (h : ∀ name, Option.Rel SameAcl (st.resolved.lookup name)
      (st'.resolved.lookup name)) {a b : ResolvedNamespace} (hab : SameAcl a b) (name other : Text) :
    Option.Rel SameAcl ((st.resolved.insert name a).lookup other)
      ((st'.resolved.insert name b).lookup other) := by
  by_cases ho : other = name
  · subst ho
    rw [AList.lookup_insert, AList.lookup_insert]
    exact .some hab
  · rw [AList.lookup_insert_ne ho, AList.lookup_insert_ne ho]
    exact h other

theorem resolveParents_same
    {resolve resolve' : Text → ResolverState →
      Except StartupError (ResolvedNamespace × ResolverState)}
    (hresolve : ∀ parent st st', SameTables st st' →
      SameResolution (resolve parent st) (resolve' parent st'))
    (parents : List Text) {a b : ResolvedNamespace} (hab : SameAcl a b) (h : SameTables st st') :
    SameResolution (resolveParents resolve parents a st) (resolveParents resolve' parents b st') := by
  induction parents generalizing a b st st' with
  | nil => exact .resolved hab h
  | cons parent rest ih =>
    rw [resolveParents, resolveParents]
    have hone := hresolve parent st st' h
    generalize resolve parent st = x at hone
    generalize resolve' parent st' = y at hone
    cases hone with
    | failed e => exact .failed e
    | resolved hincoming hst => exact ih (mergeResolvedNamespace_same hab hincoming) hst

/-- By induction on the links that are left, as the resolver recurs. -/
theorem resolveNamespaceInner_same (hc : SameNamespaces c₁ c₂) (links : ℕ) (name : Text)
    (child : Option Text) (h : SameTables st st') :
    SameResolution (resolveNamespaceInner c₁ links name child st)
      (resolveNamespaceInner c₂ links name child st') := by
  induction links generalizing name child st st' with
  | zero => exact .failed _
  | succ links ih =>
    rw [resolveNamespaceInner, resolveNamespaceInner, ← h.states]
    cases st.states.lookup name with
    | some state =>
      cases state with
      | visiting => exact .failed _
      | done =>
        have hfound := h.resolved name
        generalize st.resolved.lookup name = x at hfound
        generalize st'.resolved.lookup name = y at hfound
        cases hfound with
        | none => exact .failed _
        | some hab => exact .resolved hab h
    | none =>
      have hns := hc name
      generalize c₁.namespaces.lookup name = x at hns
      generalize c₂.namespaces.lookup name = y at hns
      cases hns with
      | none => exact .failed _
      | @some ns ns' hsame =>
        have hentered : SameTables { st with states := st.states.insert name .visiting }
            { st' with states := st.states.insert name .visiting } := ⟨rfl, h.resolved⟩
        have hparents := resolveParents_same
          (fun parent _ _ => ih parent (some name)) ns.extends
          (⟨rfl, fun _ => rfl⟩ : SameAcl {} {}) hentered
        dsimp only
        rw [← hsame.parents]
        generalize resolveParents (resolveNamespaceInner c₁ links · (some name) ·) _ _ _ = x
          at hparents
        generalize resolveParents (resolveNamespaceInner c₂ links · (some name) ·) _ _ _ = y
          at hparents
        cases hparents with
        | failed e => exact .failed e
        | resolved hinherited hst =>
          have heffective := mergeOwn_same hinherited hsame
          exact .resolved heffective ⟨congrArg (·.insert name .done) hst.states,
            resolved_insert hst.resolved heffective name⟩

/-- The same namespaces resolve to the same filters, or fail alike. -/
theorem resolveNamespace_same (hc : SameNamespaces c₁ c₂) (name : Text) :
    (∃ e, resolveNamespace c₁ name = .error e ∧ resolveNamespace c₂ name = .error e) ∨
      ∃ a b, resolveNamespace c₁ name = .ok a ∧ resolveNamespace c₂ name = .ok b ∧ SameAcl a b := by
  have hinner := resolveNamespaceInner_same hc (maxNamespaceInheritanceDepth+1) name none
    (⟨rfl, fun _ => .none⟩ : SameTables {} {})
  rw [resolveNamespace, resolveNamespace]
  generalize resolveNamespaceInner c₁ _ name none {} = x at hinner
  generalize resolveNamespaceInner c₂ _ name none {} = y at hinner
  cases hinner with
  | failed e => exact Or.inl ⟨e, rfl, rfl⟩
  | resolved hab _ => exact Or.inr ⟨_, _, rfl, rfl, hab⟩

end Resolving

section Active

structure SameActive (n m : ActiveNamespace) : Prop where
  name : n.name = m.name
  servers : n.servers = m.servers
  tools : ∀ s, n.tools.lookup s = m.tools.lookup s

variable {c₁ c₂ : TomlConfig} {n m : ActiveNamespace}

theorem new_same (hc : SameNamespaces c₁ c₂) (selected : Text) :
    (∃ e, ActiveNamespace.new c₁ selected = .error e ∧
      ActiveNamespace.new c₂ selected = .error e) ∨
    ∃ n m, ActiveNamespace.new c₁ selected = .ok n ∧ ActiveNamespace.new c₂ selected = .ok m ∧
      SameActive n m := by
  simp only [ActiveNamespace.new]
  rcases resolveNamespace_same hc (selectedNamespace selected) with
    ⟨e, h₁, h₂⟩ | ⟨a, b, h₁, h₂, hab⟩
  · rw [h₁, h₂]
    exact Or.inl ⟨_, rfl, rfl⟩
  · rw [h₁, h₂]
    exact Or.inr ⟨_, _, rfl, rfl, rfl, hab.servers, hab.tools⟩

theorem allowedServers_same (h : SameActive n m) : n.allowedServers = m.allowedServers := by
  rw [ActiveNamespace.allowedServers, h.servers, ActiveNamespace.allowedServers]

theorem isServerAllowed_same (h : SameActive n m) (server : Text) :
    n.isServerAllowed server = m.isServerAllowed server := by
  rw [ActiveNamespace.isServerAllowed, h.servers, ActiveNamespace.isServerAllowed]

end Active

end FaninMcp.NamespaceMaps
