import FaninMcp.ExtendsOrder

/-!
# What a resolution's verdict says about the graph

An error is raised by one of the recursive calls and handed up unchanged. Every
call knows how it was reached: by a walk from the first namespace whose open
namespaces all lead to the one being visited. The verdicts are read off there.
-/

set_option autoImplicit false

namespace FaninMcp.ResolverVerdict
open Foundation Foundation.RustText FaninMcp.ConfigModel FaninMcp.NamespaceResolver
  FaninMcp.ResolverDepth

def OnCycle (config : TomlConfig) (m : Text) : Prop :=
  Relation.TransGen (OrderedWalks.Link (parents config)) m m

structure Visit where
  links : ℕ
  name : Text
  child : Option Text
  st : ResolverState

def Visit.run (config : TomlConfig) (v : Visit) :
    Except StartupError (ResolvedNamespace × ResolverState) :=
  resolveNamespaceInner config v.links v.name v.child v.st

def firstVisit (n : Text) : Visit := ⟨maxNamespaceInheritanceDepth+1, n, none, {}⟩

/-- A fresh, declared namespace has visited the parents before this one, and
visits it next. -/
inductive Calls (config : TomlConfig) : Visit → Visit → Prop
  | parent {links : ℕ} {name parent : Text} {child : Option Text} {st mid : ResolverState}
      {ns : NamespaceConfig} {before after : List Text} {inherited : ResolvedNamespace} :
      st.states.lookup name = none → config.namespaces.lookup name = some ns →
      ns.extends = before ++ parent::after →
      resolveParents (fun parent st => resolveNamespaceInner config links parent (some name) st)
        before {} { st with states := st.states.insert name .visiting } = .ok (inherited, mid) →
      Calls config ⟨links+1, name, child, st⟩ ⟨links, parent, some name, mid⟩

def Made (config : TomlConfig) (n : Text) (v : Visit) : Prop :=
  Relation.ReflTransGen (Calls config) (firstVisit n) v

inductive Raises (config : TomlConfig) : Visit → StartupError → Prop
  | tooDeep (name : Text) (child : Option Text) (st : ResolverState) :
      Raises config ⟨0, name, child, st⟩
        (.namespaceInheritanceTooDeep name maxNamespaceInheritanceDepth)
  | visiting {links : ℕ} {name : Text} {child : Option Text} {st : ResolverState} :
      st.states.lookup name = some .visiting →
      Raises config ⟨links+1, name, child, st⟩ (.namespaceExtendsCycle name)
  | unresolved {links : ℕ} {name : Text} {child : Option Text} {st : ResolverState} :
      st.states.lookup name = some .done → st.resolved.lookup name = none →
      Raises config ⟨links+1, name, child, st⟩ (.namespaceExtendsCycle name)
  | missing {links : ℕ} {name : Text} {child : Option Text} {st : ResolverState} :
      st.states.lookup name = none → config.namespaces.lookup name = none →
      Raises config ⟨links+1, name, child, st⟩ (missingNamespace name child)

structure Placed (config : TomlConfig) (n : Text) (v : Visit) : Prop where
  walk : ∃ k, k + v.links = maxNamespaceInheritanceDepth+1 ∧
    OrderedWalks.Walk (parents config) k n v.name
  root : v.child = none → v.name = n
  link : ∀ c, v.child = some c → Reaches config n c ∧ v.name ∈ parents config c
  tables : ∃ finished entered, SearchState finished entered v.st ∧ Sound config finished ∧
    ∀ m ∈ entered, Relation.TransGen (OrderedWalks.Link (parents config)) m v.name

section Search
variable {config : TomlConfig} {n : Text}

theorem placed_first (config : TomlConfig) (n : Text) : Placed config n (firstVisit n) := by
  constructor
  · exact ⟨0, Nat.zero_add _, OrderedWalks.Walk.nil n⟩
  · intro _
    rfl
  · intro c hc
    cases hc
  · exact ⟨∅, ∅, searchState_empty, ⟨by simp [OrderedWalks.Closed], by simp, by simp⟩, by simp⟩

theorem placed_calls {v w : Visit} (hc : Calls config v w) (h : Placed config n v) :
    Placed config n w := by
  cases hc with
  | @parent links name parent child st mid ns before after inherited hfresh hns hsplit hbefore =>
    obtain ⟨k, hk, hwalk⟩ := h.walk
    obtain ⟨finished, entered, hs, hsound, hopen⟩ := h.tables
    have hlink : OrderedWalks.Link (parents config) name parent := by
      rw [OrderedWalks.Link, parents_of_lookup hns, hsplit]
      simp
    have hf : name ∉ finished := fun hin => by
      simp [(hs.finishedAt name).mpr hin] at hfresh
    have hloop := resolveParents_sound
      (fun w finished st acl st' hst hmid hres =>
        resolveNamespaceInner_sound links w (some name) finished _ st st' acl hst hmid hres)
      before finished {} inherited _ mid (searchState_enter hs hf) hsound hbefore
    constructor
    · show ∃ k', k' + links = _ ∧ OrderedWalks.Walk (parents config) k' n parent
      refine ⟨k+1, ?_, OrderedWalks.walk_snoc hwalk hlink⟩
      have : k + (links+1) = maxNamespaceInheritanceDepth+1 := hk
      omega
    · intro hnone
      cases hnone
    · intro c hc
      obtain rfl : name = c := Option.some.inj hc
      exact ⟨OrderedWalks.walk_reaches hwalk, hlink⟩
    · refine ⟨_, _, hloop.1, hloop.2, ?_⟩
      rintro m (hm | rfl)
      · exact Relation.TransGen.tail (hopen m hm) hlink
      · exact Relation.TransGen.single hlink

theorem placed_made {v : Visit} (h : Made config n v) : Placed config n v := by
  induction h with
  | refl => exact placed_first config n
  | tail _ hc ih => exact placed_calls hc ih

theorem resolveParents_error
    {resolve : Text → ResolverState → Except StartupError (ResolvedNamespace × ResolverState)}
    {ws : List Text} {effective : ResolvedNamespace} {st : ResolverState} {e : StartupError}
    (h : resolveParents resolve ws effective st = .error e) :
    ∃ before w after inherited mid, ws = before ++ w::after ∧
      resolveParents resolve before effective st = .ok (inherited, mid) ∧
      resolve w mid = .error e := by
  induction ws generalizing effective st with
  | nil => cases h
  | cons w rest ih =>
    rw [resolveParents] at h
    cases hw : resolve w st with
    | error e' =>
      rw [hw] at h
      exact ⟨[], w, rest, effective, st, rfl, rfl, hw.trans h⟩
    | ok out =>
      rw [hw] at h
      obtain ⟨before, x, after, inherited, mid, rfl, hbefore, hx⟩ := ih h
      refine ⟨w::before, x, after, inherited, mid, rfl, ?_, hx⟩
      rw [resolveParents, hw]
      exact hbefore

theorem error_raised (links : ℕ) (name : Text) (child : Option Text) (st : ResolverState)
    (e : StartupError) (h : resolveNamespaceInner config links name child st = .error e) :
    ∃ v, Relation.ReflTransGen (Calls config) ⟨links, name, child, st⟩ v ∧ Raises config v e := by
  induction links generalizing name child st with
  | zero =>
    obtain rfl : StartupError.namespaceInheritanceTooDeep name _ = e := Except.error.inj h
    exact ⟨_, Relation.ReflTransGen.refl, Raises.tooDeep name child st⟩
  | succ links ih =>
    rw [resolveNamespaceInner] at h
    split at h
    · rename_i hvisit
      obtain rfl := Except.error.inj h
      exact ⟨_, Relation.ReflTransGen.refl, Raises.visiting hvisit⟩
    · rename_i hdone
      split at h
      · cases h
      · rename_i hmemo
        obtain rfl := Except.error.inj h
        exact ⟨_, Relation.ReflTransGen.refl, Raises.unresolved hdone hmemo⟩
    · rename_i hfresh
      split at h
      · rename_i hmissing
        obtain rfl := Except.error.inj h
        exact ⟨_, Relation.ReflTransGen.refl, Raises.missing hfresh hmissing⟩
      · rename_i ns hns
        dsimp only at h
        split at h
        · rename_i e' hparents
          obtain rfl := Except.error.inj h
          obtain ⟨before, w, after, inherited, mid, hsplit, hbefore, hw⟩ :=
            resolveParents_error hparents
          obtain ⟨v, hv, hraise⟩ := ih w (some name) mid hw
          have hcall : Calls config ⟨links+1, name, child, st⟩ ⟨links, w, some name, mid⟩ :=
            Calls.parent hfresh hns hsplit hbefore
          exact ⟨v, Relation.ReflTransGen.head hcall hv, hraise⟩
        · cases h

theorem raises_run {v : Visit} {e : StartupError} (h : Raises config v e) :
    v.run config = .error e := by
  cases h with
  | tooDeep name child st => rfl
  | visiting hvisit => simp [Visit.run, resolveNamespaceInner, hvisit]
  | unresolved hdone hmemo => simp [Visit.run, resolveNamespaceInner, hdone, hmemo]
  | missing hfresh hmissing => simp [Visit.run, resolveNamespaceInner, hfresh, hmissing]

theorem resolveParents_append
    {resolve : Text → ResolverState → Except StartupError (ResolvedNamespace × ResolverState)}
    {before after : List Text} {effective inherited : ResolvedNamespace} {st mid : ResolverState}
    (h : resolveParents resolve before effective st = .ok (inherited, mid)) :
    resolveParents resolve (before ++ after) effective st =
      resolveParents resolve after inherited mid := by
  induction before generalizing effective st with
  | nil =>
    obtain ⟨rfl, rfl⟩ := Prod.mk.inj (Except.ok.inj h)
    rfl
  | cons w rest ih =>
    rw [resolveParents] at h
    rw [List.cons_append, resolveParents]
    cases hw : resolve w st with
    | error e =>
      rw [hw] at h
      cases h
    | ok out =>
      rw [hw] at h
      exact ih h

theorem calls_run {v w : Visit} {e : StartupError} (hc : Calls config v w)
    (h : w.run config = .error e) : v.run config = .error e := by
  cases hc with
  | @parent links name parent child st mid ns before after inherited hfresh hns hsplit hbefore =>
    have hloop : resolveParents
        (fun parent st => resolveNamespaceInner config links parent (some name) st)
        ns.extends {} { st with states := st.states.insert name .visiting } = .error e := by
      rw [hsplit, resolveParents_append hbefore, resolveParents]
      rw [Visit.run] at h
      rw [h]
    simp [Visit.run, resolveNamespaceInner, hfresh, hns, hloop]

theorem made_error {v : Visit} {e : StartupError} (hv : Made config n v)
    (hr : Raises config v e) : resolveNamespace config n = .error e := by
  have hup : ∀ u, Relation.ReflTransGen (Calls config) u v → u.run config = .error e := by
    intro u hu
    induction hu using Relation.ReflTransGen.head_induction_on with
    | refl => exact raises_run hr
    | head hc _ ih => exact calls_run hc ih
  have hfirst := hup _ hv
  rw [Visit.run, firstVisit] at hfirst
  rw [resolveNamespace, hfirst]
  rfl

end Search

def Reported (config : TomlConfig) (n : Text) : StartupError → Prop
  | .unknownNamespace m => m = n ∧ n ∉ config.namespaces
  | .unknownNamespaceParent c p =>
    Reaches config n c ∧ p ∈ parents config c ∧ p ∉ config.namespaces
  | .namespaceExtendsCycle m => Reaches config n m ∧ OnCycle config m
  | .namespaceInheritanceTooDeep m depth => depth = maxNamespaceInheritanceDepth ∧
    OrderedWalks.Walk (parents config) (maxNamespaceInheritanceDepth+1) n m
  | _ => False

section Verdict
variable {config : TomlConfig} {n : Text}

theorem placed_memoised {v : Visit} (h : Placed config n v)
    (hdone : v.st.states.lookup v.name = some .done) :
    (v.st.resolved.lookup v.name).isSome := by
  obtain ⟨finished, entered, hs, _⟩ := h.tables
  exact hs.memoised v.name ((hs.finishedAt v.name).mp hdone)

theorem raised_reported {v : Visit} {e : StartupError} (h : Placed config n v)
    (hr : Raises config v e) : Reported config n e := by
  obtain ⟨k, hk, hwalk⟩ := h.walk
  cases hr with
  | tooDeep name child st =>
    obtain rfl : k = maxNamespaceInheritanceDepth+1 := hk
    exact ⟨rfl, hwalk⟩
  | visiting hvisit =>
    obtain ⟨finished, entered, hs, _, hopen⟩ := h.tables
    exact ⟨OrderedWalks.walk_reaches hwalk, hopen _ ((hs.visitingAt _).mp hvisit)⟩
  | unresolved hdone hmemo =>
    have hsome := placed_memoised h hdone
    rw [hmemo] at hsome
    cases hsome
  | @missing links name child st hfresh hmissing =>
    have hout : name ∉ config.namespaces := AList.lookup_eq_none.mp hmissing
    cases child with
    | none =>
      obtain rfl : name = n := h.root rfl
      exact ⟨rfl, hout⟩
    | some c =>
      obtain ⟨hreach, hlisted⟩ := h.link c rfl
      exact ⟨hreach, hlisted, hout⟩

theorem resolveNamespace_reported {e : StartupError} (h : resolveNamespace config n = .error e) :
    Reported config n e := by
  rw [resolveNamespace] at h
  cases hinner : resolveNamespaceInner config (maxNamespaceInheritanceDepth+1) n none {} with
  | ok out => simp [hinner, Except.map] at h
  | error e' =>
    rw [hinner] at h
    obtain rfl : e' = e := Except.error.inj h
    obtain ⟨v, hv, hraise⟩ := error_raised _ n none {} e' hinner
    exact raised_reported (placed_made hv) hraise

end Verdict

/-- The verdict on a namespace is true of the inheritance graph, and a graph
without defects is accepted. A diamond reports no cycle: the memo table has
every namespace that is finished. -/
theorem resolver_verdict (config : TomlConfig) (n : Text) :
    (∀ acl, resolveNamespace config n = .ok acl →
      ∀ m, Reaches config n m → m ∈ config.namespaces ∧ ¬ OnCycle config m) ∧
    (∀ e, resolveNamespace config n = .error e → Reported config n e) ∧
    (∀ v, Made config n v → v.st.states.lookup v.name = some .done →
      (v.st.resolved.lookup v.name).isSome) ∧
    ((∀ m, Reaches config n m → m ∈ config.namespaces ∧ ¬ OnCycle config m) →
      (∀ k m, OrderedWalks.Walk (parents config) k n m → k ≤ maxNamespaceInheritanceDepth) →
      ∃ acl, resolveNamespace config n = .ok acl) := by
  refine ⟨?_, ?_, ?_, ?_⟩
  · intro acl hok m hm
    obtain ⟨hdefined, hacyclic⟩ := ExtendsOrder.accepts_sound ⟨acl, hok⟩
    exact ⟨hdefined m hm, hacyclic m hm⟩
  · intro e he
    exact resolveNamespace_reported he
  · intro v hv hdone
    exact placed_memoised (placed_made hv) hdone
  · intro hgraph hshort
    have hv := ExtendsOrder.resolveNamespace_verdict (fun m hm => (hgraph m hm).1)
      (fun m hm => (hgraph m hm).2)
    rcases hv with ⟨⟨m, hleft, hm⟩, _⟩ | ⟨_, hok⟩
    · obtain ⟨k, p, hk, hwalk⟩ := ExtendsOrder.longPath_of_leftmost hleft hm
      have := hshort k p hwalk
      omega
    · exact hok

end FaninMcp.ResolverVerdict
