import FaninMcp.ConfigModel
import FaninMcp.Foundation.OrderedWalks

/-!
# Resolving a namespace's inheritance

The resolver is a depth-first search with a memo table: a finished namespace is
returned from the table, an unfinished one is a cycle. What it computes is
compared with the composition of a set of namespaces, in which servers are
united, present filters are intersected and absent filters do not restrict.
-/

set_option autoImplicit false

namespace FaninMcp.NamespaceResolver
open Foundation Foundation.RustText FaninMcp.ConfigModel

/-- An absent `tools` key permits every tool of its server, a present empty set
permits none. -/
structure ResolvedNamespace where
  servers : Finset Text := ∅
  tools : TextMap (Finset Text) := ∅

inductive VisitState where
  | visiting
  | done
  deriving DecidableEq

structure ResolverState where
  states : TextMap VisitState := ∅
  resolved : TextMap ResolvedNamespace := ∅

def mergeToolFilters (target : TextMap (Finset Text)) (incoming : List (Σ _ : Text, Finset Text)) :
    TextMap (Finset Text) :=
  incoming.foldl (fun target entry =>
    match target.lookup entry.1 with
    | some current => target.insert entry.1 (current.filter (· ∈ entry.2))
    | none => target.insert entry.1 entry.2) target

def mergeResolvedNamespace (target incoming : ResolvedNamespace) : ResolvedNamespace where
  servers := target.servers ∪ incoming.servers
  tools := mergeToolFilters target.tools incoming.tools.entries

def mergeOwn (effective : ResolvedNamespace) (ns : NamespaceConfig) : ResolvedNamespace where
  servers := effective.servers ∪ ns.servers.toFinset
  tools := mergeToolFilters effective.tools
    (ns.tools.entries.map (fun entry => ⟨entry.1, entry.2.toFinset⟩))

/-- The loop over `extends`: each parent is resolved and merged in turn. -/
def resolveParents
    (resolve : Text → ResolverState → Except StartupError (ResolvedNamespace × ResolverState)) :
    List Text → ResolvedNamespace → ResolverState →
      Except StartupError (ResolvedNamespace × ResolverState)
  | [], effective, st => .ok (effective, st)
  | parent::rest, effective, st =>
    match resolve parent st with
    | .error e => .error e
    | .ok (incoming, st) => resolveParents resolve rest (mergeResolvedNamespace effective incoming) st

def missingNamespace (name : Text) : Option Text → StartupError
  | some child => .unknownNamespaceParent child name
  | none => .unknownNamespace name

/-- `depth` counts up to its maximum in the source. Here the links that may
still be followed are counted down, so that zero is the depth past the maximum. -/
def resolveNamespaceInner (config : TomlConfig) :
    ℕ → Text → Option Text → ResolverState → Except StartupError (ResolvedNamespace × ResolverState)
  | 0, name, _, _ => .error (.namespaceInheritanceTooDeep name maxNamespaceInheritanceDepth)
  | links+1, name, child, st =>
    match st.states.lookup name with
    | some .visiting => .error (.namespaceExtendsCycle name)
    | some .done =>
      match st.resolved.lookup name with
      | some found => .ok (found, st)
      | none => .error (.namespaceExtendsCycle name)
    | none =>
      match config.namespaces.lookup name with
      | none => .error (missingNamespace name child)
      | some ns =>
        let entered := { st with states := st.states.insert name .visiting }
        match resolveParents (fun parent st =>
            resolveNamespaceInner config links parent (some name) st) ns.extends {} entered with
        | .error e => .error e
        | .ok (inherited, st) =>
          let effective := mergeOwn inherited ns
          .ok (effective,
            { states := st.states.insert name .done, resolved := st.resolved.insert name effective })

def resolveNamespace (config : TomlConfig) (name : Text) : Except StartupError ResolvedNamespace :=
  (resolveNamespaceInner config (maxNamespaceInheritanceDepth+1) name none {}).map Prod.fst

/-- The `extends` links of a namespace, in the order of the file. -/
def parents (config : TomlConfig) (name : Text) : List Text :=
  ((config.namespaces.lookup name).map NamespaceConfig.extends).getD []

def Reaches (config : TomlConfig) : Text → Text → Prop := OrderedWalks.Reaches (parents config)

def ListsServer (config : TomlConfig) (name server : Text) : Prop :=
  ∃ ns, config.namespaces.lookup name = some ns ∧ server ∈ ns.servers

/-- The namespace's own `tools` entry for a server. -/
def toolEntry (config : TomlConfig) (name server : Text) : Option (List Text) :=
  (config.namespaces.lookup name).bind (fun ns => ns.tools.lookup server)

/-- The filters a set of namespaces imposes together: one is present when some
member has an entry, and lists what every member's entry lists. -/
structure ComposesFilters (config : TomlConfig) (members : Set Text)
    (filter : Text → Option (Finset Text)) : Prop where
  absent : ∀ s, filter s = none → ∀ m ∈ members, toolEntry config m s = none
  present : ∀ s tools, filter s = some tools → (∃ m ∈ members, (toolEntry config m s).isSome) ∧
    ∀ t, t ∈ tools ↔ ∀ m ∈ members, ∀ listed, toolEntry config m s = some listed → t ∈ listed

/-- `acl` is what the namespaces in `members` amount to together. -/
structure Composes (config : TomlConfig) (members : Set Text) (acl : ResolvedNamespace) : Prop where
  servers : ∀ s, s ∈ acl.servers ↔ ∃ m ∈ members, ListsServer config m s
  filters : ComposesFilters config members (fun s => acl.tools.lookup s)

theorem lookup_mergeToolFilters (target : TextMap (Finset Text))
    (incoming : List (Σ _ : Text, Finset Text)) (hn : incoming.NodupKeys) (s : Text) :
    (mergeToolFilters target incoming).lookup s =
      match target.lookup s, incoming.dlookup s with
      | some current, some tools => some (current.filter (· ∈ tools))
      | some current, none => some current
      | none, found => found := by
  induction incoming generalizing target with
  | nil => cases h : target.lookup s <;> simp [mergeToolFilters, h]
  | cons entry rest ih =>
    obtain ⟨server, tools⟩ := entry
    obtain ⟨hfresh, hrest⟩ := List.nodupKeys_cons.mp hn
    have hstep : mergeToolFilters target (⟨server, tools⟩::rest) = mergeToolFilters
        (match target.lookup server with
          | some current => target.insert server (current.filter (· ∈ tools))
          | none => target.insert server tools) rest := rfl
    rw [hstep, ih _ hrest]
    by_cases hs : s = server
    · subst hs
      have hnone : rest.dlookup s = none := List.dlookup_eq_none.mpr hfresh
      cases htarget : target.lookup s <;> simp [hnone]
    · have hhead : List.dlookup s (⟨server, tools⟩::rest) = rest.dlookup s :=
        List.dlookup_cons_ne _ _ hs
      rw [hhead]
      cases htarget : target.lookup server <;> simp [AList.lookup_insert_ne hs]

section Composition
variable {config : TomlConfig} {X Y : Set Text}

theorem composesFilters_merge {target : TextMap (Finset Text)}
    {incoming : List (Σ _ : Text, Finset Text)} (hn : incoming.NodupKeys)
    (hx : ComposesFilters config X (fun s => target.lookup s))
    (hy : ComposesFilters config Y (fun s => incoming.dlookup s)) :
    ComposesFilters config (X ∪ Y) (fun s => (mergeToolFilters target incoming).lookup s) := by
  constructor
  · intro s hs m hm
    simp only [lookup_mergeToolFilters target incoming hn] at hs
    cases hl : target.lookup s with
    | some current => cases hr : incoming.dlookup s <;> simp [hl, hr] at hs
    | none =>
      simp only [hl] at hs
      exact hm.elim (hx.absent s hl m) (hy.absent s hs m)
  · intro s tools hs
    simp only [lookup_mergeToolFilters target incoming hn] at hs
    cases hl : target.lookup s with
    | none =>
      simp only [hl] at hs
      obtain ⟨⟨m, hm, hsome⟩, hmem⟩ := hy.present s tools hs
      refine ⟨⟨m, Or.inr hm, hsome⟩, fun t => (hmem t).trans
        ⟨fun h k hk => ?_, fun h k hk => h k (Or.inr hk)⟩⟩
      rcases hk with hk | hk
      · simp [hx.absent s hl k hk]
      · exact h k hk
    | some current =>
      obtain ⟨⟨m, hm, hsome⟩, hmem⟩ := hx.present s current hl
      refine ⟨⟨m, Or.inl hm, hsome⟩, fun t => ?_⟩
      cases hr : incoming.dlookup s with
      | none =>
        simp only [hl, hr, Option.some.injEq] at hs
        subst hs
        refine (hmem t).trans ⟨fun h k hk => ?_, fun h k hk => h k (Or.inl hk)⟩
        rcases hk with hk | hk
        · exact h k hk
        · simp [hy.absent s hr k hk]
      | some listed =>
        simp only [hl, hr, Option.some.injEq] at hs
        subst hs
        have hright := (hy.present s listed hr).2 t
        rw [Finset.mem_filter, hmem, hright]
        refine ⟨fun h k hk => hk.elim (h.1 k) (h.2 k),
          fun h => ⟨fun k hk => h k (Or.inl hk), fun k hk => h k (Or.inr hk)⟩⟩

theorem mem_tools_iff {tools : TextMap (Finset Text)}
    (h : ComposesFilters config X (fun s => tools.lookup s)) {s : Text} :
    s ∈ tools ↔ ∃ m ∈ X, (toolEntry config m s).isSome := by
  rw [← AList.lookup_isSome]
  cases hl : tools.lookup s with
  | none =>
    simp only [Option.isSome_none, Bool.false_eq_true, false_iff]
    rintro ⟨m, hm, hsome⟩
    simp [h.absent s hl m hm] at hsome
  | some listed => exact iff_of_true rfl (h.present s listed hl).1

theorem composes_empty : Composes config ∅ {} := by
  refine ⟨by simp, ⟨by simp, by simp⟩⟩

theorem composes_merge {a b : ResolvedNamespace} (ha : Composes config X a)
    (hb : Composes config Y b) : Composes config (X ∪ Y) (mergeResolvedNamespace a b) := by
  constructor
  · intro s
    simp only [mergeResolvedNamespace, Finset.mem_union, ha.servers, hb.servers, Set.mem_union]
    grind
  · exact composesFilters_merge b.tools.nodupKeys ha.filters hb.filters

def ownFilters (ns : NamespaceConfig) : List (Σ _ : Text, Finset Text) :=
  ns.tools.entries.map fun entry => ⟨entry.1, entry.2.toFinset⟩

theorem ownFilters_nodup (ns : NamespaceConfig) : (ownFilters ns).NodupKeys := by
  simpa [ownFilters, List.NodupKeys, List.keys, Function.comp_def] using ns.tools.nodupKeys

theorem ownFilters_lookup (ns : NamespaceConfig) (s : Text) :
    (ownFilters ns).dlookup s = (ns.tools.lookup s).map List.toFinset :=
  @List.dlookup_map₂ Text _ _ _ ns.tools.entries (fun _ => List.toFinset) s

theorem composesFilters_own {name : Text} {ns : NamespaceConfig}
    (h : config.namespaces.lookup name = some ns) :
    ComposesFilters config {name} (fun s => (ns.tools.lookup s).map List.toFinset) := by
  constructor
  · intro s hs m hm
    rw [Set.mem_singleton_iff] at hm
    subst hm
    simpa [toolEntry, h] using hs
  · intro s tools hs
    obtain ⟨listed, hl, rfl⟩ := Option.map_eq_some_iff.mp hs
    simp [toolEntry, h, hl]

theorem composes_own {a : ResolvedNamespace} {name : Text} {ns : NamespaceConfig}
    (ha : Composes config X a) (h : config.namespaces.lookup name = some ns) :
    Composes config (X ∪ {name}) (mergeOwn a ns) := by
  constructor
  · intro s
    simp only [mergeOwn, Finset.mem_union, ha.servers, List.mem_toFinset, Set.mem_union,
      Set.mem_singleton_iff]
    constructor
    · rintro (⟨m, hm, hs⟩ | hs)
      · exact ⟨m, Or.inl hm, hs⟩
      · exact ⟨name, Or.inr rfl, ns, h, hs⟩
    · rintro ⟨m, hm | rfl, hs⟩
      · exact Or.inl ⟨m, hm, hs⟩
      · obtain ⟨ns', h', hs⟩ := hs
        rw [h, Option.some.injEq] at h'
        exact Or.inr (h' ▸ hs)
  · apply composesFilters_merge
    · exact ownFilters_nodup ns
    · exact ha.filters
    · change ComposesFilters config {name} fun s => (ownFilters ns).dlookup s
      simpa only [ownFilters_lookup] using composesFilters_own h

end Composition

def Memoised (config : TomlConfig) (st : ResolverState) : Prop :=
  ∀ name acl, st.resolved.lookup name = some acl →
    Composes config {m | Reaches config name m} acl

section Resolver
variable {config : TomlConfig}

theorem resolveParents_composes
    {resolve : Text → ResolverState → Except StartupError (ResolvedNamespace × ResolverState)}
    (hr : ∀ parent st acl st', Memoised config st → resolve parent st = .ok (acl, st') →
      Composes config {m | Reaches config parent m} acl ∧ Memoised config st')
    (parents : List Text) (members : Set Text) (effective acl : ResolvedNamespace)
    (st st' : ResolverState) (he : Composes config members effective) (hm : Memoised config st)
    (h : resolveParents resolve parents effective st = .ok (acl, st')) :
    Composes config (members ∪ {m | ∃ p ∈ parents, Reaches config p m}) acl ∧
      Memoised config st' := by
  induction parents generalizing members effective st with
  | nil =>
    simp only [resolveParents, Except.ok.injEq, Prod.mk.injEq] at h
    obtain ⟨rfl, rfl⟩ := h
    simpa using And.intro he hm
  | cons parent rest ih =>
    rw [resolveParents] at h
    split at h
    · cases h
    · rename_i incoming mid hres
      obtain ⟨hinc, hmid⟩ := hr parent st incoming mid hm hres
      have hnext := ih _ _ mid (composes_merge he hinc) hmid h
      have hset : members ∪ {m | Reaches config parent m} ∪
          {m | ∃ p ∈ rest, Reaches config p m} =
          members ∪ {m | ∃ p ∈ parent::rest, Reaches config p m} := by
        ext m
        simp [or_assoc]
      rwa [hset] at hnext

theorem parents_of_lookup {name : Text} {ns : NamespaceConfig}
    (h : config.namespaces.lookup name = some ns) : parents config name = ns.extends := by
  simp [parents, h]

theorem reaches_cases {name : Text} {ns : NamespaceConfig}
    (h : config.namespaces.lookup name = some ns) :
    {m | Reaches config name m} = {m | ∃ p ∈ ns.extends, Reaches config p m} ∪ {name} := by
  have hset := OrderedWalks.reach_succ (parents config) name
  rw [parents_of_lookup h] at hset
  exact hset

theorem resolveNamespaceInner_composes (links : ℕ) (name : Text) (child : Option Text)
    (st st' : ResolverState) (acl : ResolvedNamespace) (hm : Memoised config st)
    (h : resolveNamespaceInner config links name child st = .ok (acl, st')) :
    Composes config {m | Reaches config name m} acl ∧ Memoised config st' := by
  induction links generalizing name child st st' acl with
  | zero => cases h
  | succ links ih =>
    rw [resolveNamespaceInner] at h
    split at h
    · cases h
    · split at h
      · rename_i found hfound
        simp only [Except.ok.injEq, Prod.mk.injEq] at h
        obtain ⟨rfl, rfl⟩ := h
        exact ⟨hm name found hfound, hm⟩
      · cases h
    · split at h
      · cases h
      · rename_i ns hns
        dsimp only at h
        split at h
        · cases h
        · rename_i inherited mid hparents
          simp only [Except.ok.injEq, Prod.mk.injEq] at h
          obtain ⟨rfl, rfl⟩ := h
          have hentered : Memoised config ⟨st.states.insert name .visiting, st.resolved⟩ := hm
          obtain ⟨hinh, hmid⟩ := resolveParents_composes
            (fun parent st acl st' hst hres => ih parent (some name) st st' acl hst hres)
            ns.extends ∅ {} inherited _ mid composes_empty hentered hparents
          have hown : Composes config {m | Reaches config name m} (mergeOwn inherited ns) := by
            rw [reaches_cases hns]
            simpa using composes_own hinh hns
          refine ⟨hown, fun other acl hacl => ?_⟩
          by_cases ho : other = name
          · subst ho
            simp only [AList.lookup_insert, Option.some.injEq] at hacl
            exact hacl ▸ hown
          · rw [AList.lookup_insert_ne ho] at hacl
            exact hmid other acl hacl

theorem resolveNamespace_composes {name : Text} {acl : ResolvedNamespace}
    (h : resolveNamespace config name = .ok acl) :
    Composes config {m | Reaches config name m} acl := by
  rw [resolveNamespace] at h
  cases hinner : resolveNamespaceInner config (maxNamespaceInheritanceDepth+1) name none {} with
  | error e => simp [hinner, Except.map] at h
  | ok out =>
    simp only [hinner, Except.map, Except.ok.injEq] at h
    have hempty : Memoised config {} := by
      intro other acl hacl
      simp at hacl
    exact h ▸ (resolveNamespaceInner_composes _ name none {} out.2 out.1 hempty hinner).1

end Resolver

end FaninMcp.NamespaceResolver
