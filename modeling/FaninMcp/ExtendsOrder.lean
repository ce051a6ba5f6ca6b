import FaninMcp.ConfigValidation
import FaninMcp.ResolverDepth

/-!
# The order of `extends` entries

Acceptance should depend on the inheritance graph alone. The bound on links is
a statement about the longest path, the resolver attains the leftmost ones, and
the two agree under a condition on the ordered graph.
-/

set_option autoImplicit false

namespace FaninMcp.ExtendsOrder
open Foundation Foundation.RustText FaninMcp.ConfigModel FaninMcp.NamespaceResolver
  FaninMcp.ConfigValidation FaninMcp.ResolverDepth

section Bound
variable (config : TomlConfig) (n : Text)

/-- Some path from `n` has more links than the maximum. -/
def LongPath : Prop :=
  ∃ k m, maxNamespaceInheritanceDepth < k ∧ OrderedWalks.Walk (parents config) k n m

/-- The bound measures the longest path: `n` is too deep exactly when a path
from it has more links than the maximum. -/
def DepthVerdict : Prop := TooDeep (resolveNamespace config n) ↔ LongPath config n

/-- If there is a path that long, then the leftmost path to some namespace with
parents already has the maximum number of links. -/
def DepthCondition : Prop :=
  LongPath config n → ∃ m, OrderedWalks.Leftmost (parents config) maxNamespaceInheritanceDepth n m ∧
    parents config m ≠ []

def Accepts : Prop := ∃ acl, resolveNamespace config n = .ok acl

end Bound

/-- The same configuration with the entries of `extends` lists in another order. -/
structure Reordered (config config' : TomlConfig) : Prop where
  servers : config.servers = config'.servers
  declared : ∀ n, n ∈ config.namespaces ↔ n ∈ config'.namespaces
  extended : ∀ n, (parents config n).Perm (parents config' n)
  listed : ∀ n s, ListsServer config n s ↔ ListsServer config' n s
  filtered : ∀ n s, toolEntry config n s = toolEntry config' n s

theorem reordered_refl (config : TomlConfig) : Reordered config config :=
  ⟨rfl, fun _ => Iff.rfl, fun _ => List.Perm.refl _, fun _ _ => Iff.rfl, fun _ _ => rfl⟩

theorem reordered_symm {config config' : TomlConfig} (h : Reordered config config') :
    Reordered config' config :=
  ⟨h.servers.symm, fun n => (h.declared n).symm, fun n => (h.extended n).symm,
    fun n s => (h.listed n s).symm, fun n s => (h.filtered n s).symm⟩

section Acceptance
variable {config config' : TomlConfig} {n : Text}

theorem resolveNamespace_verdict (hd : Defined config n)
    (ha : OrderedWalks.AcyclicFrom (parents config) n) :
    (∃ m, OrderedWalks.Leftmost (parents config) maxNamespaceInheritanceDepth n m ∧
        parents config m ≠ []) ∧ TooDeep (resolveNamespace config n) ∨
      (¬ ∃ m, OrderedWalks.Leftmost (parents config) maxNamespaceInheritanceDepth n m ∧
        parents config m ≠ []) ∧ Accepts config n := by
  have h := resolveNamespaceInner_verdict (maxNamespaceInheritanceDepth+1) n
    none ∅ ∅ {} searchState_empty (by simp [OrderedWalks.Closed]) (by simp) hd ha
  have hdeep : OrderedWalks.Overdeep (parents config) (maxNamespaceInheritanceDepth+1) ∅ n ↔
      ∃ m, OrderedWalks.Leftmost (parents config) maxNamespaceInheritanceDepth n m ∧
        parents config m ≠ [] := by
    simp [OrderedWalks.Overdeep]
  rw [Verdict, hdeep] at h
  rcases h with ⟨hdeep, m, herr⟩ | ⟨hdeep, acl, st, hok, _⟩
  · exact Or.inl ⟨hdeep, m, by rw [resolveNamespace, herr]; rfl⟩
  · exact Or.inr ⟨hdeep, acl, by rw [resolveNamespace, hok]; rfl⟩

theorem accepts_not_tooDeep (h : Accepts config n) : ¬ TooDeep (resolveNamespace config n) := by
  rintro ⟨m, herr⟩
  obtain ⟨acl, hok⟩ := h
  rw [hok] at herr
  cases herr

theorem accepts_iff_isOk : Accepts config n ↔ (resolveNamespace config n).isOk = true := by
  rw [Accepts]
  cases resolveNamespace config n <;> simp [Except.isOk, Except.toBool]

theorem longPath_of_leftmost {m : Text}
    (h : OrderedWalks.Leftmost (parents config) maxNamespaceInheritanceDepth n m)
    (hm : parents config m ≠ []) : LongPath config n := by
  obtain ⟨p, hp⟩ := List.exists_mem_of_ne_nil _ hm
  exact ⟨_, p, Nat.lt_succ_self _, OrderedWalks.walk_snoc (OrderedWalks.leftmost_walk h) hp⟩

theorem depthVerdict_iff (hd : Defined config n)
    (ha : OrderedWalks.AcyclicFrom (parents config) n) :
    DepthVerdict config n ↔ DepthCondition config n := by
  rw [DepthVerdict, DepthCondition]
  rcases resolveNamespace_verdict hd ha with ⟨hleft, hdeep⟩ | ⟨hleft, hok⟩
  · obtain ⟨m, hm, hp⟩ := hleft
    exact iff_of_true (iff_of_true hdeep (longPath_of_leftmost hm hp)) (fun _ => ⟨m, hm, hp⟩)
  · have hnot := accepts_not_tooDeep hok
    constructor
    · exact fun h hlong => absurd (h.mpr hlong) hnot
    · exact fun h => iff_of_false hnot (fun hlong => hleft (h hlong))

theorem accepts_iff (hd : Defined config n) (ha : OrderedWalks.AcyclicFrom (parents config) n) :
    Accepts config n ↔ ¬ TooDeep (resolveNamespace config n) := by
  rcases resolveNamespace_verdict hd ha with ⟨_, hdeep⟩ | ⟨_, hok⟩
  · exact iff_of_false (fun h => accepts_not_tooDeep h hdeep) (not_not.mpr hdeep)
  · exact iff_of_true hok (accepts_not_tooDeep hok)

theorem accepts_sound (h : Accepts config n) :
    Defined config n ∧ OrderedWalks.AcyclicFrom (parents config) n := by
  obtain ⟨acl, hok⟩ := h
  rw [resolveNamespace] at hok
  cases hinner : resolveNamespaceInner config (maxNamespaceInheritanceDepth+1) n none {} with
  | error e => simp [hinner, Except.map] at hok
  | ok out =>
    have hsound := (resolveNamespaceInner_sound _ n none ∅ ∅ {} out.2 out.1 searchState_empty
      ⟨by simp [OrderedWalks.Closed], by simp, by simp⟩ hinner).2
    exact ⟨fun m hm => hsound.declared m (Or.inr hm), fun m hm => hsound.acyclic m (Or.inr hm)⟩

theorem reaches_reordered (h : Reordered config config') : Reaches config = Reaches config' := by
  rw [Reaches, Reaches, OrderedWalks.Reaches, OrderedWalks.Reaches,
    OrderedWalks.link_perm h.extended]

theorem defined_reordered (h : Reordered config config') (hd : Defined config n) :
    Defined config' n := by
  intro m hm
  rw [← reaches_reordered h] at hm
  exact (h.declared m).mp (hd m hm)

theorem acyclic_reordered (h : Reordered config config')
    (ha : OrderedWalks.AcyclicFrom (parents config) n) :
    OrderedWalks.AcyclicFrom (parents config') n := by
  rw [OrderedWalks.AcyclicFrom, OrderedWalks.Reaches, ← OrderedWalks.link_perm h.extended]
  exact ha

theorem longPath_reordered (h : Reordered config config') :
    LongPath config n ↔ LongPath config' n := by
  simp only [LongPath, OrderedWalks.walk_perm h.extended]

theorem accepts_reordered (h : Reordered config config') (hc : DepthCondition config n)
    (hc' : DepthCondition config' n) : Accepts config n ↔ Accepts config' n := by
  have hone : ∀ a b : TomlConfig, Reordered a b → DepthCondition a n → DepthCondition b n →
      Accepts a n → Accepts b n := by
    intro a b hab hca hcb hok
    obtain ⟨hd, ha⟩ := accepts_sound hok
    have hd' := defined_reordered hab hd
    have ha' := acyclic_reordered hab ha
    have hv : TooDeep (resolveNamespace a n) ↔ LongPath a n := (depthVerdict_iff hd ha).mpr hca
    have hv' : TooDeep (resolveNamespace b n) ↔ LongPath b n := (depthVerdict_iff hd' ha').mpr hcb
    rw [accepts_iff hd ha, hv, longPath_reordered hab] at hok
    rwa [accepts_iff hd' ha', hv']
  exact ⟨hone _ _ h hc hc', hone _ _ (reordered_symm h) hc' hc⟩

theorem composed_reordered (h : Reordered config config') {acl acl' : ResolvedNamespace}
    (hc : Composes config {m | Reaches config n m} acl)
    (hc' : Composes config' {m | Reaches config' n m} acl') :
    (∀ s, s ∈ acl.servers ↔ s ∈ acl'.servers) ∧ ∀ s, s ∈ acl.tools ↔ s ∈ acl'.tools := by
  constructor
  · intro s
    simp only [hc.servers, hc'.servers, reaches_reordered h, h.listed]
  · intro s
    simp only [mem_tools_iff hc.filters, mem_tools_iff hc'.filters, reaches_reordered h, h.filtered]

theorem namespaceReady_reordered (h : Reordered config config')
    (ha : Accepts config n → Accepts config' n) (hr : NamespaceReady config n) :
    NamespaceReady config' n := by
  obtain ⟨acl, hok, hservers, hkeys⟩ := hr
  obtain ⟨acl', hok'⟩ := ha ⟨acl, hok⟩
  obtain ⟨hsame, htools⟩ := composed_reordered h (resolveNamespace_composes hok)
    (resolveNamespace_composes hok')
  refine ⟨acl', hok', fun s hs => ?_, fun s hs => ?_⟩
  · rw [← h.servers]
    exact hservers s ((hsame s).mpr hs)
  · exact (hsame s).mp (hkeys s ((htools s).mpr hs))

theorem valid_reordered (h : Reordered config config') {selected : Text}
    (ha : ∀ m, Accepts config m → Accepts config' m) (hv : Valid config selected) :
    Valid config' selected := by
  refine ⟨?_, ?_, (h.declared _).mp hv.active, fun m hm => ?_⟩
  · rw [← h.servers]
    exact hv.names
  · rw [← h.servers]
    exact hv.servers
  · exact namespaceReady_reordered h (ha m) (hv.namespaces m ((h.declared m).mpr hm))

end Acceptance

def ConfigAccepted (it : HashIteration) (fromStr : Text → Except Text TomlConfig)
    (contents selected : Text) : Prop :=
  ∃ config, loadAndValidate it fromStr (.ok contents) selected = .ok config

theorem configAccepted_iff {it : HashIteration} {fromStr : Text → Except Text TomlConfig}
    {contents selected : Text} {config : TomlConfig} (h : fromStr contents = .ok config) :
    ConfigAccepted it fromStr contents selected ↔ Valid config selected := by
  rw [ConfigAccepted, ← validate_ok it]
  simp only [loadAndValidate, h]
  cases validate it config selected with
  | error e => simp [Except.map]
  | ok u => simp [Except.map]

/-- On a declared acyclic graph the bound measures the longest path exactly
under the depth condition. The verdict then survives every reordering exactly
when every reordering meets the condition, and so does a whole file's. -/
theorem depth_bound_exact (config : TomlConfig) (n : Text) (hd : Defined config n)
    (ha : OrderedWalks.AcyclicFrom (parents config) n) :
    (DepthVerdict config n ↔ DepthCondition config n) ∧
    ((DepthVerdict config n ∧
        ∀ config', Reordered config config' → (Accepts config n ↔ Accepts config' n)) ↔
      ∀ config', Reordered config config' → DepthCondition config' n) ∧
    ∀ config', Reordered config config' →
      (∀ m, DepthCondition config m ∧ DepthCondition config' m) →
      ∀ it it' fromStr contents contents' selected, fromStr contents = .ok config →
        fromStr contents' = .ok config' →
        (ConfigAccepted it fromStr contents selected ↔
          ConfigAccepted it' fromStr contents' selected) := by
  refine ⟨depthVerdict_iff hd ha, ⟨?_, ?_⟩, ?_⟩
  · rintro ⟨hv, hacc⟩ config' hr
    have hd' := defined_reordered hr hd
    have ha' := acyclic_reordered hr ha
    have hv' : TooDeep (resolveNamespace config n) ↔ LongPath config n := hv
    have hsame := hacc config' hr
    rw [accepts_iff hd ha, accepts_iff hd' ha', not_iff_not] at hsame
    rw [← depthVerdict_iff hd' ha', DepthVerdict, ← hsame, hv', longPath_reordered hr]
  · intro hc
    have hself := hc config (reordered_refl config)
    exact ⟨(depthVerdict_iff hd ha).mpr hself,
      fun config' hr => accepts_reordered hr hself (hc config' hr)⟩
  · intro config' hr hc it it' fromStr contents contents' selected hparse hparse'
    rw [configAccepted_iff hparse, configAccepted_iff hparse']
    have hacc := fun m => accepts_reordered hr (hc m).1 (hc m).2
    exact ⟨valid_reordered hr fun m => (hacc m).mp,
      valid_reordered (reordered_symm hr) fun m => (hacc m).mpr⟩

section Ladder

def rung (i : ℕ) : Text := [Char.ofNat (200+i)]

def rungs : TextMap NamespaceConfig := List.toAList
  ((List.range 65).map fun i => ⟨rung i, { «extends» := if i = 64 then [] else [rung (i+1)] }⟩)

def ladder (first : List Text) : TomlConfig where
  namespaces := rungs.insert "top".toList { «extends» := first }

def shortcut : TomlConfig := ladder [rung 1, rung 0]

def detour : TomlConfig := ladder [rung 0, rung 1]

def height : Text → ℕ
  | [c] => 265 - c.toNat
  | _ => 66

theorem shortcut_falls : ∀ entry ∈ shortcut.namespaces.entries, ∀ p ∈ entry.2.extends,
    p ∈ shortcut.namespaces ∧ height p < height entry.1 := by
  decide +kernel

theorem shortcut_link {a b : Text} (h : OrderedWalks.Link (parents shortcut) a b) :
    b ∈ shortcut.namespaces ∧ height b < height a := by
  rw [OrderedWalks.Link, parents] at h
  cases hl : shortcut.namespaces.lookup a with
  | none => simp [hl] at h
  | some ns => exact shortcut_falls ⟨a, ns⟩ (AList.mem_lookup_iff.mp hl) b (by simpa [hl] using h)

theorem shortcut_defined : Defined shortcut "top".toList := by
  intro m hm
  cases hm.cases_tail with
  | inl h => exact h ▸ by decide +kernel
  | inr h => exact (shortcut_link h.choose_spec.2).1

theorem shortcut_acyclic : OrderedWalks.AcyclicFrom (parents shortcut) "top".toList :=
  OrderedWalks.acyclic_of_rank height (fun _ _ h => (shortcut_link h).2) _

theorem ladder_reordered (ps qs : List Text) (h : ps.Perm qs) :
    Reordered (ladder ps) (ladder qs) := by
  refine ⟨rfl, fun n => ?_, fun n => ?_, fun n s => ?_, fun n s => ?_⟩
  · simp [ladder]
  all_goals
    by_cases hn : n = "top".toList
    · subst hn
      simp [parents, ListsServer, toolEntry, ladder, h]
    · have hrest : (ladder ps).namespaces.lookup n = (ladder qs).namespaces.lookup n := by
        rw [ladder, ladder, AList.lookup_insert_ne hn, AList.lookup_insert_ne hn]
      simp [parents, ListsServer, toolEntry, hrest]

/-- The longest path does not decide: a path of sixty-five links starts at the
top of both ladders, one order of its entries is accepted, the other is not. -/
theorem depth_bound_misses_shortcut :
    Defined shortcut "top".toList ∧
    OrderedWalks.AcyclicFrom (parents shortcut) "top".toList ∧
    LongPath shortcut "top".toList ∧ ¬ TooDeep (resolveNamespace shortcut "top".toList) ∧
    Reordered shortcut detour ∧
    Accepts shortcut "top".toList ∧ ¬ Accepts detour "top".toList := by
  have hr : Reordered shortcut detour :=
    ladder_reordered [rung 1, rung 0] [rung 0, rung 1] (List.Perm.swap _ _ _)
  have haccepts : Accepts shortcut "top".toList := by
    rw [accepts_iff_isOk]
    decide +kernel
  have hrejects : ¬ Accepts detour "top".toList := by
    rw [accepts_iff_isOk]
    decide +kernel
  have hd := defined_reordered hr shortcut_defined
  have ha := acyclic_reordered hr shortcut_acyclic
  obtain ⟨⟨m, hleft, hm⟩, _⟩ := (resolveNamespace_verdict hd ha).resolve_right
    fun h => hrejects h.2
  have hlong := (longPath_reordered hr).mpr (longPath_of_leftmost hleft hm)
  exact ⟨shortcut_defined, shortcut_acyclic, hlong, accepts_not_tooDeep haccepts, hr, haccepts,
    hrejects⟩

theorem depth_bound_exact_shortcut :
    (DepthVerdict shortcut "top".toList ↔ DepthCondition shortcut "top".toList) ∧
    ((DepthVerdict shortcut "top".toList ∧ ∀ config', Reordered shortcut config' →
        (Accepts shortcut "top".toList ↔ Accepts config' "top".toList)) ↔
      ∀ config', Reordered shortcut config' → DepthCondition config' "top".toList) :=
  have h := depth_bound_exact shortcut "top".toList shortcut_defined shortcut_acyclic
  ⟨h.1, h.2.1⟩

end Ladder

end FaninMcp.ExtendsOrder
