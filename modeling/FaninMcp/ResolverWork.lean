import Mathlib.Algebra.BigOperators.Group.Finset.Basic
import FaninMcp.NamespaceAcl
import FaninMcp.ResolverDepth

/-!
# The work of a resolution

The same search with a counter of its calls. A namespace that is entered pays for
the calls on its parents, and none is entered twice. So the work is one call for
each link of the namespaces that can be reached, however many walks there are
through them, and also where the search fails.
-/

set_option autoImplicit false

namespace FaninMcp.ResolverWork
open Foundation Foundation.RustText FaninMcp.ConfigModel FaninMcp.NamespaceResolver
  FaninMcp.NamespaceAcl FaninMcp.ResolverDepth

abbrev Counted := Except StartupError (ResolvedNamespace × ResolverState) × ℕ

/-- `resolveParents`, counted. -/
def countedParents (resolve : Text → ResolverState → Counted) :
    List Text → ResolvedNamespace → ResolverState → Counted
  | [], effective, st => (.ok (effective, st), 0)
  | parent::rest, effective, st =>
    match resolve parent st with
    | (.error e, calls) => (.error e, calls)
    | (.ok (incoming, st), calls) =>
      let out := countedParents resolve rest (mergeResolvedNamespace effective incoming) st
      (out.1, calls + out.2)

/-- `resolveNamespaceInner`, counted. -/
def countedInner (config : TomlConfig) : ℕ → Text → Option Text → ResolverState → Counted
  | 0, name, _, _ =>
    (.error (.namespaceInheritanceTooDeep name maxNamespaceInheritanceDepth), 1)
  | links+1, name, child, st =>
    match st.states.lookup name with
    | some .visiting => (.error (.namespaceExtendsCycle name), 1)
    | some .done =>
      match st.resolved.lookup name with
      | some found => (.ok (found, st), 1)
      | none => (.error (.namespaceExtendsCycle name), 1)
    | none =>
      match config.namespaces.lookup name with
      | none => (.error (missingNamespace name child), 1)
      | some ns =>
        let entered := { st with states := st.states.insert name .visiting }
        match countedParents (fun parent st =>
            countedInner config links parent (some name) st) ns.extends {} entered with
        | (.error e, calls) => (.error e, calls + 1)
        | (.ok (inherited, st), calls) =>
          let effective := mergeOwn inherited ns
          (.ok (effective,
            { states := st.states.insert name .done, resolved := st.resolved.insert name effective }),
            calls + 1)

/-- The calls of `resolve_namespace_inner` in one resolution. -/
def calls (config : TomlConfig) (name : Text) : ℕ :=
  (countedInner config (maxNamespaceInheritanceDepth+1) name none {}).2

section Counter
variable {config : TomlConfig}

theorem countedParents_fst {counted : Text → ResolverState → Counted}
    {resolve : Text → ResolverState → Except StartupError (ResolvedNamespace × ResolverState)}
    (h : ∀ parent st, (counted parent st).1 = resolve parent st) (ps : List Text)
    (effective : ResolvedNamespace) (st : ResolverState) :
    (countedParents counted ps effective st).1 = resolveParents resolve ps effective st := by
  induction ps generalizing effective st with
  | nil => rfl
  | cons parent rest ih =>
    rw [countedParents, resolveParents, ← h parent st]
    obtain ⟨e | ⟨incoming, mid⟩, n⟩ := counted parent st
    · rfl
    · exact ih _ mid

theorem countedInner_fst (config : TomlConfig) (links : ℕ) (name : Text) (child : Option Text)
    (st : ResolverState) :
    (countedInner config links name child st).1 =
      resolveNamespaceInner config links name child st := by
  induction links generalizing name child st with
  | zero => rfl
  | succ links ih =>
    rw [countedInner, resolveNamespaceInner]
    cases st.states.lookup name with
    | some visit =>
      cases visit with
      | visiting => rfl
      | done =>
        dsimp only
        cases st.resolved.lookup name <;> rfl
    | none =>
      dsimp only
      cases config.namespaces.lookup name with
      | none => rfl
      | some ns =>
        dsimp only
        rw [← countedParents_fst (fun parent st => ih parent (some name) st)]
        obtain ⟨e | ⟨inherited, mid⟩, n⟩ := countedParents _ ns.extends {} _ <;> rfl

end Counter

section Budget
variable (config : TomlConfig) (N : Finset Text)

/-- The links of the namespaces of `N` that no call has entered yet. -/
def work (st : ResolverState) : ℕ :=
  ∑ m ∈ N, if (st.states.lookup m).isNone then (parents config m).length else 0

/-- The calls are paid for by what is no longer to be done. -/
structure Paid (st : ResolverState) (out : Counted) (budget : ℕ) : Prop where
  bound : out.2 ≤ budget + work config N st
  exact : ∀ acl st', out.1 = .ok (acl, st') →
    out.2 + work config N st' = budget + work config N st ∧
      ∀ m, (st.states.lookup m).isSome → (st'.states.lookup m).isSome

variable {config N}

theorem paid_error (e : StartupError) (st : ResolverState) : Paid config N st (.error e, 1) 1 := by
  refine ⟨Nat.le_add_right _ _, ?_⟩
  rintro _ _ ⟨⟩

theorem paid_found (found : ResolvedNamespace) (st : ResolverState) :
    Paid config N st (.ok (found, st), 1) 1 := by
  refine ⟨Nat.le_add_right _ _, ?_⟩
  rintro _ _ ⟨⟩
  exact ⟨rfl, fun _ hm => hm⟩

theorem work_enter {st : ResolverState} {name : Text} (hn : name ∈ N)
    (hfresh : st.states.lookup name = none) :
    work config N st = (parents config name).length +
      work config N { st with states := st.states.insert name .visiting } := by
  rw [work, work, ← Finset.add_sum_erase N _ hn, ← Finset.add_sum_erase N _ hn]
  simp only [hfresh, Option.isNone_none, if_true, AList.lookup_insert, Option.isNone_some,
    Bool.false_eq_true, if_false, Nat.zero_add]
  congr 1
  apply Finset.sum_congr rfl
  intro m hm
  rw [AList.lookup_insert_ne (Finset.ne_of_mem_erase hm)]

theorem work_leave {st : ResolverState} {name : Text} (hentered : (st.states.lookup name).isSome)
    (resolved : TextMap ResolvedNamespace) :
    work config N { states := st.states.insert name .done, resolved := resolved } =
      work config N st := by
  apply Finset.sum_congr rfl
  intro m _
  by_cases hm : m = name
  · subst hm
    rw [Option.isNone_eq_false_iff.mpr hentered]
    simp
  · rw [AList.lookup_insert_ne hm]

theorem entered_insert {st : ResolverState} {name m : Text} {visit : VisitState}
    (hm : (st.states.lookup m).isSome) : ((st.states.insert name visit).lookup m).isSome := by
  by_cases h : m = name
  · subst h
    simp
  · rwa [AList.lookup_insert_ne h]

theorem paid_parents {counted : Text → ResolverState → Counted}
    (h : ∀ parent ∈ N, ∀ st, Paid config N st (counted parent st) 1) {ps : List Text}
    (hps : ∀ parent ∈ ps, parent ∈ N) (effective : ResolvedNamespace) (st : ResolverState) :
    Paid config N st (countedParents counted ps effective st) ps.length := by
  induction ps generalizing effective st with
  | nil =>
    refine ⟨Nat.zero_le _, ?_⟩
    rintro _ _ ⟨⟩
    exact ⟨rfl, fun _ hm => hm⟩
  | cons parent rest ih =>
    obtain ⟨hparent, hrest⟩ := List.forall_mem_cons.mp hps
    have hone := h parent hparent st
    rw [countedParents, List.length_cons]
    generalize counted parent st = out at hone ⊢
    obtain ⟨e | ⟨incoming, mid⟩, n⟩ := out
    · have hbound : n ≤ 1 + work config N st := hone.bound
      refine ⟨by dsimp only; omega, ?_⟩
      rintro _ _ ⟨⟩
    · obtain ⟨hexact, hkeep⟩ := hone.exact incoming mid rfl
      have hothers := ih hrest (mergeResolvedNamespace effective incoming) mid
      have hbound := hothers.bound
      dsimp only at hexact ⊢
      refine ⟨by dsimp only; omega, fun acl st' hout => ?_⟩
      obtain ⟨hexact', hkeep'⟩ := hothers.exact acl st' hout
      exact ⟨by dsimp only; omega, fun m hm => hkeep' m (hkeep m hm)⟩

theorem paid_inner (hclosed : ∀ m ∈ N, ∀ p ∈ parents config m, p ∈ N) (links : ℕ) {name : Text}
    (hn : name ∈ N) (child : Option Text) (st : ResolverState) :
    Paid config N st (countedInner config links name child st) 1 := by
  induction links generalizing name child st with
  | zero => exact paid_error _ st
  | succ links ih =>
    rw [countedInner]
    cases hvisit : st.states.lookup name with
    | some visit =>
      cases visit with
      | visiting => exact paid_error _ st
      | done =>
        dsimp only
        cases st.resolved.lookup name with
        | none => exact paid_error _ st
        | some found => exact paid_found found st
    | none =>
      dsimp only
      cases hns : config.namespaces.lookup name with
      | none => exact paid_error _ st
      | some ns =>
        dsimp only
        have hlinks := parents_of_lookup hns
        have hparents := paid_parents (fun parent hp st => ih hp (some name) st)
          (hlinks ▸ hclosed name hn) {} { st with states := st.states.insert name .visiting }
        have hspent := @work_enter config N st name hn hvisit
        rw [hlinks] at hspent
        generalize countedParents _ ns.extends {} _ = out at hparents ⊢
        have hbound := hparents.bound
        obtain ⟨e | ⟨inherited, mid⟩, n⟩ := out
        · dsimp only at hbound ⊢
          refine ⟨by dsimp only; omega, ?_⟩
          rintro _ _ ⟨⟩
        · obtain ⟨htotal, hkeep⟩ := hparents.exact inherited mid rfl
          dsimp only at hbound htotal
          refine ⟨by dsimp only; omega, ?_⟩
          rintro _ _ ⟨⟩
          have hentered : (mid.states.lookup name).isSome := hkeep name (by simp)
          refine ⟨?_, fun m hm => entered_insert (hkeep m (entered_insert hm))⟩
          rw [work_leave hentered]
          dsimp only
          omega

end Budget

section Resolutions
variable {config : TomlConfig} {name : Text} {N : Finset Text}

theorem work_start (config : TomlConfig) (N : Finset Text) :
    work config N {} = ∑ m ∈ N, (parents config m).length := by
  simp [work]

theorem calls_paid (hn : name ∈ N) (hclosed : ∀ m ∈ N, ∀ p ∈ parents config m, p ∈ N) :
    Paid config N {} (countedInner config (maxNamespaceInheritanceDepth+1) name none {}) 1 :=
  paid_inner hclosed _ hn none {}

theorem work_done {acl : ResolvedNamespace} {st : ResolverState}
    (h : resolveNamespaceInner config (maxNamespaceInheritanceDepth+1) name none {} =
      .ok (acl, st)) (hN : ∀ m ∈ N, Reaches config name m) : work config N st = 0 := by
  have hsound : Sound config ∅ := ⟨nofun, nofun, nofun⟩
  have hst := (resolveNamespaceInner_sound _ name none ∅ ∅ {} st acl searchState_empty hsound h).1
  apply Finset.sum_eq_zero
  intro m hm
  rw [(hst.finishedAt m).mpr (Or.inr (hN m hm))]
  rfl

def allLinks (config : TomlConfig) : ℕ :=
  (config.namespaces.keys.map fun m => (parents config m).length).sum

def around (config : TomlConfig) (name : Text) : Finset Text :=
  insert name (config.namespaces.keys ++ config.namespaces.keys.flatMap (parents config)).toFinset

theorem parents_declared {m p : Text} (h : p ∈ parents config m) : m ∈ config.namespaces.keys := by
  rw [parents] at h
  cases hlookup : config.namespaces.lookup m with
  | none => simp [hlookup] at h
  | some ns => exact AList.mem_keys.mpr (AList.lookup_isSome.mp (by simp [hlookup]))

theorem around_closed (config : TomlConfig) (name : Text) :
    ∀ m ∈ around config name, ∀ p ∈ parents config m, p ∈ around config name := by
  intro m _ p hp
  apply Finset.mem_insert_of_mem
  rw [List.mem_toFinset, List.mem_append]
  exact Or.inr (List.mem_flatMap.mpr ⟨m, parents_declared hp, hp⟩)

theorem around_links (config : TomlConfig) (name : Text) :
    ∑ m ∈ around config name, (parents config m).length = allLinks config := by
  rw [allLinks, ← List.sum_toFinset _ config.namespaces.keys_nodup]
  symm
  apply Finset.sum_subset
  · intro m hm
    apply Finset.mem_insert_of_mem
    rw [List.mem_toFinset] at hm ⊢
    exact List.mem_append_left _ hm
  · intro m _ hm
    rw [List.length_eq_zero_iff, List.eq_nil_iff_forall_not_mem]
    exact fun p hp => hm (List.mem_toFinset.mpr (parents_declared hp))

/-- A resolution makes at most one call for each link of what it can reach, and
one more, whether it succeeds or fails; if it succeeds it makes exactly these.
So no resolution makes more calls than the configuration has links, and one. -/
theorem resolver_work (config : TomlConfig) (name : Text) :
    (countedInner config (maxNamespaceInheritanceDepth+1) name none {}).1.map Prod.fst =
      resolveNamespace config name ∧
    (∀ N : Finset Text, (∀ m, m ∈ N ↔ Reaches config name m) →
      calls config name ≤ 1 + ∑ m ∈ N, (parents config m).length ∧
      ((resolveNamespace config name).isOk = true →
        calls config name = 1 + ∑ m ∈ N, (parents config m).length)) ∧
    calls config name ≤ 1 + allLinks config := by
  have hfst := countedInner_fst config (maxNamespaceInheritanceDepth+1) name none {}
  refine ⟨by rw [hfst]; rfl, fun N hN => ?_, ?_⟩
  · have hn : name ∈ N := (hN name).mpr Relation.ReflTransGen.refl
    have hclosed : ∀ m ∈ N, ∀ p ∈ parents config m, p ∈ N := fun m hm p hp =>
      (hN p).mpr (Relation.ReflTransGen.tail ((hN m).mp hm) hp)
    have hpaid := calls_paid hn hclosed
    rw [← work_start]
    refine ⟨hpaid.bound, fun hok => ?_⟩
    cases hres : resolveNamespaceInner config (maxNamespaceInheritanceDepth+1) name none {} with
    | error e => simp [resolveNamespace, hres, Except.map, Except.isOk, Except.toBool] at hok
    | ok out =>
      obtain ⟨acl, st⟩ := out
      obtain ⟨hexact, -⟩ := hpaid.exact acl st (hfst.trans hres)
      rwa [work_done hres fun m hm => (hN m).mp hm] at hexact
  · have hpaid := @calls_paid config name _ (Finset.mem_insert_self _ _) (around_closed config name)
    rw [← around_links config name, ← work_start]
    exact hpaid.bound

end Resolutions

def diamondNames : Finset Text :=
  {"top".toList, "left".toList, "right".toList, "base".toList}

theorem diamond_reaches (m : Text) : m ∈ diamondNames ↔ Reaches diamond "top".toList m := by
  have hclosed : ∀ m ∈ diamondNames, ∀ p ∈ parents diamond m, p ∈ diamondNames := by decide
  have hside : ∀ side ∈ ["left".toList, "right".toList], Reaches diamond "top".toList side :=
    fun side hin => Relation.ReflTransGen.single hin
  constructor
  · intro hm
    simp only [diamondNames, Finset.mem_insert, Finset.mem_singleton] at hm
    rcases hm with rfl | rfl | rfl | rfl
    · exact Relation.ReflTransGen.refl
    · exact hside _ (by simp)
    · exact hside _ (by simp)
    · exact (hside "left".toList (by simp)).tail (List.mem_singleton_self _)
  · intro hm
    induction hm with
    | refl => decide
    | tail _ hlink ih => exact hclosed _ ih _ hlink

theorem resolver_work_diamond : calls diamond "top".toList = 5 :=
  ((resolver_work diamond "top".toList).2.1 diamondNames diamond_reaches).2 rfl

end FaninMcp.ResolverWork
