import FaninMcp.NamespaceResolver

/-!
# How deep a resolution goes

The bound on `extends` links is checked on the way down, and a namespace that
is already finished is not measured again. The resolver therefore rejects an
acyclic configuration exactly when a leftmost path runs out of links, which the
order of the `extends` entries decides, not the length of the longest path.
-/

set_option autoImplicit false

namespace FaninMcp.ResolverDepth
open Foundation Foundation.RustText FaninMcp.ConfigModel FaninMcp.NamespaceResolver

/-- The tables of a resolution that has finished the one set and is inside
the other. -/
structure SearchState (finished entered : Set Text) (st : ResolverState) : Prop where
  finishedAt : ∀ name, st.states.lookup name = some .done ↔ name ∈ finished
  visitingAt : ∀ name, st.states.lookup name = some .visiting ↔ name ∈ entered
  memoised : ∀ name ∈ finished, (st.resolved.lookup name).isSome

def TooDeep {α : Type} (out : Except StartupError α) : Prop :=
  ∃ name, out = .error (.namespaceInheritanceTooDeep name maxNamespaceInheritanceDepth)

theorem searchState_empty : SearchState ∅ ∅ {} := by
  refine ⟨by simp, by simp, by simp⟩

theorem searchState_disjoint {finished entered : Set Text} {st : ResolverState}
    (h : SearchState finished entered st) {name : Text} (hf : name ∈ finished) :
    name ∉ entered := by
  intro he
  have hdone := (h.finishedAt name).mpr hf
  rw [(h.visitingAt name).mpr he] at hdone
  cases hdone

theorem searchState_fresh {finished entered : Set Text} {st : ResolverState}
    (h : SearchState finished entered st) {name : Text} (hf : name ∉ finished)
    (he : name ∉ entered) : st.states.lookup name = none := by
  cases hs : st.states.lookup name with
  | none => rfl
  | some visit =>
    cases visit with
    | visiting => exact absurd ((h.visitingAt name).mp hs) he
    | done => exact absurd ((h.finishedAt name).mp hs) hf

theorem searchState_enter {finished entered : Set Text} {st : ResolverState}
    (h : SearchState finished entered st) {name : Text} (hf : name ∉ finished) :
    SearchState finished (entered ∪ {name})
      { st with states := st.states.insert name .visiting } := by
  refine ⟨fun other => ?_, fun other => ?_, h.memoised⟩
  · by_cases ho : other = name
    · subst ho
      simpa using hf
    · simp [AList.lookup_insert_ne ho, h.finishedAt]
  · by_cases ho : other = name
    · subst ho
      simp
    · simp [AList.lookup_insert_ne ho, h.visitingAt, ho]

theorem searchState_leave {finished entered : Set Text} {st : ResolverState} {name : Text}
    (h : SearchState finished (entered ∪ {name}) st) (he : name ∉ entered)
    (acl : ResolvedNamespace) :
    SearchState (finished ∪ {name}) entered
      { states := st.states.insert name .done, resolved := st.resolved.insert name acl } := by
  refine ⟨fun other => ?_, fun other => ?_, fun other ho' => ?_⟩
  · by_cases ho : other = name
    · subst ho
      simp
    · simp [AList.lookup_insert_ne ho, h.finishedAt, ho]
  · by_cases ho : other = name
    · subst ho
      simpa using he
    · simp [AList.lookup_insert_ne ho, h.visitingAt, ho]
  · by_cases ho : other = name
    · subst ho
      simp
    · simpa [AList.lookup_insert_ne ho] using h.memoised other (ho'.resolve_right ho)

section Verdict
variable {config : TomlConfig}

/-- Every namespace reachable from `n` is declared. -/
def Defined (config : TomlConfig) (n : Text) : Prop :=
  ∀ m, Reaches config n m → m ∈ config.namespaces

/-- What a resolution of `ws` comes to: it runs out of links, or it finishes
all they reach. -/
def Verdict {α : Type} (overdeep : Prop) (finished entered : Set Text)
    (out : Except StartupError (α × ResolverState)) : Prop :=
  (overdeep ∧ TooDeep out) ∨
    (¬ overdeep ∧ ∃ acl st, out = .ok (acl, st) ∧ SearchState finished entered st)

theorem resolveParents_verdict (links : ℕ) {entered : Set Text}
    (resolve : Text → ResolverState → Except StartupError (ResolvedNamespace × ResolverState))
    (ws : List Text)
    (hr : ∀ w ∈ ws, ∀ finished st, SearchState finished entered st →
      OrderedWalks.Closed (parents config) finished →
      Verdict (OrderedWalks.Overdeep (parents config) links finished w)
        (finished ∪ {m | Reaches config w m}) entered (resolve w st))
    (finished : Set Text) (effective : ResolvedNamespace) (st : ResolverState)
    (hs : SearchState finished entered st) (hc : OrderedWalks.Closed (parents config) finished) :
    Verdict (OrderedWalks.OverdeepAmong (parents config) links finished ws)
      (finished ∪ OrderedWalks.ReachSet (parents config) ws) entered
      (resolveParents resolve ws effective st) := by
  induction ws generalizing finished effective st with
  | nil =>
    refine Or.inr ⟨OrderedWalks.overdeepAmong_nil _ _, effective, st, rfl, ?_⟩
    simpa using hs
  | cons w rest ih =>
    rw [OrderedWalks.overdeepAmong_cons, OrderedWalks.reachSet_cons, resolveParents,
      ← Set.union_assoc]
    rcases hr w (by simp) finished st hs hc with ⟨hdeep, name, herr⟩ | ⟨hdeep, acl, mid, hok, hmid⟩
    · exact Or.inl ⟨Or.inl hdeep, name, by rw [herr]⟩
    · rw [hok]
      have hrest := ih (fun x hx => hr x (by simp [hx])) _
        (mergeResolvedNamespace effective acl) mid hmid (OrderedWalks.closed_union_reach hc w)
      rcases hrest with ⟨hmore, hout⟩ | ⟨hmore, hout⟩
      · exact Or.inl ⟨Or.inr hmore, hout⟩
      · exact Or.inr ⟨not_or.mpr ⟨hdeep, hmore⟩, hout⟩

theorem resolveNamespaceInner_verdict (links : ℕ) (name : Text) (child : Option Text)
    (finished entered : Set Text) (st : ResolverState) (hs : SearchState finished entered st)
    (hc : OrderedWalks.Closed (parents config) finished)
    (hfree : ∀ m, Reaches config name m → m ∉ entered)
    (hd : Defined config name) (ha : OrderedWalks.AcyclicFrom (parents config) name) :
    Verdict (OrderedWalks.Overdeep (parents config) links finished name)
      (finished ∪ {m | Reaches config name m}) entered
      (resolveNamespaceInner config links name child st) := by
  induction links generalizing name child finished entered st with
  | zero => exact Or.inl ⟨Or.inl rfl, name, rfl⟩
  | succ links ih =>
    rw [resolveNamespaceInner]
    by_cases hf : name ∈ finished
    · obtain ⟨acl, hacl⟩ := Option.isSome_iff_exists.mp (hs.memoised name hf)
      have hsame : finished ∪ {m | Reaches config name m} = finished :=
        Set.union_eq_self_of_subset_right (hc name hf)
      refine Or.inr ⟨OrderedWalks.not_overdeep_of_finished _ hc hf, acl, st, ?_, ?_⟩
      · simp [(hs.finishedAt name).mpr hf, hacl]
      · rwa [hsame]
    · have he : name ∉ entered := hfree name Relation.ReflTransGen.refl
      obtain ⟨ns, hns⟩ := Option.isSome_iff_exists.mp
        (AList.lookup_isSome.mpr (hd name Relation.ReflTransGen.refl))
      have hloop := resolveParents_verdict links
        (fun parent st => resolveNamespaceInner config links parent (some name) st)
        ns.extends (fun w hw mid st' hmid hclosed => ih w (some name) mid (entered ∪ {name}) st'
          hmid hclosed ?_ (fun m hm => hd m (Relation.ReflTransGen.head ?_ hm))
          (OrderedWalks.acyclic_child ha ?_))
        finished {} _ (searchState_enter hs hf) hc
      · rw [OrderedWalks.overdeep_succ links hf, parents_of_lookup hns, reaches_cases hns,
          ← Set.union_assoc]
        rw [searchState_fresh hs hf he]
        simp only [hns]
        rcases hloop with ⟨hdeep, other, herr⟩ | ⟨hdeep, acl, mid, hok, hmid⟩
        · exact Or.inl ⟨hdeep, other, by rw [herr]⟩
        · refine Or.inr ⟨hdeep, mergeOwn acl ns, _, by rw [hok], searchState_leave hmid he _⟩
      all_goals
        have hlink : OrderedWalks.Link (parents config) name w := by
          rw [OrderedWalks.Link, parents_of_lookup hns]
          exact hw
      · rintro m hm (hin | rfl)
        · exact hfree m (Relation.ReflTransGen.head hlink hm) hin
        · exact OrderedWalks.acyclic_no_return ha hlink hm
      · exact hlink
      · exact hlink

/-- A finished set whose members are declared and lie on no cycle. -/
structure Sound (config : TomlConfig) (finished : Set Text) : Prop where
  closed : OrderedWalks.Closed (parents config) finished
  declared : ∀ m ∈ finished, m ∈ config.namespaces
  acyclic : ∀ m ∈ finished, ¬ Relation.TransGen (OrderedWalks.Link (parents config)) m m

theorem resolveParents_sound {entered : Set Text}
    {resolve : Text → ResolverState → Except StartupError (ResolvedNamespace × ResolverState)}
    (hr : ∀ w finished st acl st', SearchState finished entered st → Sound config finished →
      resolve w st = .ok (acl, st') →
      SearchState (finished ∪ {m | Reaches config w m}) entered st' ∧
        Sound config (finished ∪ {m | Reaches config w m}))
    (ws : List Text) (finished : Set Text) (effective acl : ResolvedNamespace)
    (st st' : ResolverState) (hs : SearchState finished entered st) (hc : Sound config finished)
    (h : resolveParents resolve ws effective st = .ok (acl, st')) :
    SearchState (finished ∪ OrderedWalks.ReachSet (parents config) ws) entered st' ∧
      Sound config (finished ∪ OrderedWalks.ReachSet (parents config) ws) := by
  induction ws generalizing finished effective st with
  | nil =>
    simp only [resolveParents, Except.ok.injEq, Prod.mk.injEq] at h
    obtain ⟨_, rfl⟩ := h
    simpa using And.intro hs hc
  | cons w rest ih =>
    rw [resolveParents] at h
    split at h
    · cases h
    · rename_i incoming mid hres
      obtain ⟨hmid, hmidc⟩ := hr w finished st incoming mid hs hc hres
      rw [OrderedWalks.reachSet_cons, ← Set.union_assoc]
      exact ih _ _ mid hmid hmidc h

theorem sound_joined {finished : Set Text} {name : Text} {ns : NamespaceConfig}
    (hns : config.namespaces.lookup name = some ns)
    (hclosed : OrderedWalks.Closed (parents config) finished)
    (h : Sound config (finished ∪ OrderedWalks.ReachSet (parents config) ns.extends))
    (hback : name ∉ OrderedWalks.ReachSet (parents config) ns.extends) :
    Sound config (finished ∪ {m | Reaches config name m}) := by
  have hset : {m | Reaches config name m} =
      OrderedWalks.ReachSet (parents config) ns.extends ∪ {name} := reaches_cases hns
  refine ⟨OrderedWalks.closed_union_reach hclosed name, ?_, ?_⟩
  · rw [hset, ← Set.union_assoc]
    rintro m (hm | rfl)
    · exact h.declared m hm
    · exact AList.lookup_isSome.mp (by simp [hns])
  · rw [hset, ← Set.union_assoc]
    rintro m (hm | rfl) hcycle
    · exact h.acyclic m hm hcycle
    · obtain ⟨w, hl, hw⟩ := Relation.TransGen.head'_iff.mp hcycle
      rw [OrderedWalks.Link, parents_of_lookup hns] at hl
      exact hback ⟨w, hl, hw⟩

theorem resolveNamespaceInner_sound (links : ℕ) (name : Text) (child : Option Text)
    (finished entered : Set Text) (st st' : ResolverState) (acl : ResolvedNamespace)
    (hs : SearchState finished entered st) (hc : Sound config finished)
    (h : resolveNamespaceInner config links name child st = .ok (acl, st')) :
    SearchState (finished ∪ {m | Reaches config name m}) entered st' ∧
      Sound config (finished ∪ {m | Reaches config name m}) := by
  induction links generalizing name child finished entered st st' acl with
  | zero => cases h
  | succ links ih =>
    rw [resolveNamespaceInner] at h
    split at h
    · cases h
    · rename_i hdone
      split at h
      · simp only [Except.ok.injEq, Prod.mk.injEq] at h
        obtain ⟨_, rfl⟩ := h
        have hsame : finished ∪ {m | Reaches config name m} = finished :=
          Set.union_eq_self_of_subset_right (hc.closed name ((hs.finishedAt name).mp hdone))
        rw [hsame]
        exact ⟨hs, hc⟩
      · cases h
    · rename_i hfresh
      split at h
      · cases h
      · rename_i ns hns
        dsimp only at h
        split at h
        · cases h
        · rename_i inherited mid hparents
          simp only [Except.ok.injEq, Prod.mk.injEq] at h
          obtain ⟨_, rfl⟩ := h
          have hf : name ∉ finished := fun hin => by simp [(hs.finishedAt name).mpr hin] at hfresh
          have he : name ∉ entered := fun hin => by simp [(hs.visitingAt name).mpr hin] at hfresh
          obtain ⟨hmid, hsound⟩ := resolveParents_sound
            (fun w mid st acl st' hst hmid hres => ih w (some name) mid _ st st' acl hst hmid hres)
            ns.extends finished {} inherited _ mid (searchState_enter hs hf) hc hparents
          have hleave := searchState_leave hmid he (mergeOwn inherited ns)
          rw [Set.union_assoc, ← parents_of_lookup hns, ← OrderedWalks.reach_succ] at hleave
          -- the namespace itself was open all along, so no parent leads back to it
          have hback : name ∉ OrderedWalks.ReachSet (parents config) ns.extends := fun hin =>
            searchState_disjoint hmid (Or.inr hin) (Or.inr rfl)
          exact ⟨hleave, sound_joined hns hc.closed hsound hback⟩

end Verdict

end FaninMcp.ResolverDepth
