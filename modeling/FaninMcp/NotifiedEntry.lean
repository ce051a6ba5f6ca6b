import FaninMcp.EntryLineage
import FaninMcp.MetaAcl

/-!
# What becomes of a notification

A notification sets the dirty flag of its entry. Whoever has seen the flag set
goes on to clear it, one of them does, asks for the list and caches it; nothing
but a failure sets the flag again. So with a single notification and no failure
there is one refetch, and one list that was fetched after it.
-/

set_option autoImplicit false

namespace FaninMcp.NotifiedEntry
open Foundation.RustText Foundation.JsonText Foundation.AsyncPrograms FaninMcp.ConfigModel
  FaninMcp.ErrorModel FaninMcp.RegistryModel FaninMcp.RegistryWorld FaninMcp.RegistryProtocol
  FaninMcp.RegistryObeys FaninMcp.RegistryInvariant FaninMcp.SingleFlight
  FaninMcp.CancellationSafety FaninMcp.EntryLineage FaninMcp.RegistryWalk FaninMcp.MetaAcl

section Glances

/-- The entry whose flag the task has seen set and not yet tried to clear, and
whether a timer has fired or an upstream has answered with an error. -/
structure Glance where
  due : Option Entry := none
  failed : Bool := false

def glanceAfter (φ : Glance) : (op : Op) → Ans op → Glance
  | .loadDirty entry, true => { φ with due := some entry }
  | .swapDirty _, _ => { φ with due := none }
  | .poll, true => { φ with failed := true }
  | .listReply _, .error _ => { φ with failed := true }
  | _, _ => φ

structure GlanceMay (φ : Glance) (op : Op) : Prop where
  due : ∀ entry, φ.due = some entry → op = .swapDirty entry
  failed : ∀ entry, op = .storeDirty entry → φ.failed = true

abbrev glanceProtocol : Protocol registryOps := ⟨Glance, {}, GlanceMay, glanceAfter⟩

def isFlag : Op → Bool
  | .loadDirty _ | .swapDirty _ | .storeDirty _ => true
  | _ => false

variable {φ : Glance} {α : Type} {R : α → Prop} {server : Text} {entry : Entry} {op : Op}

theorem glance_may (hφ : φ.due = none) (h : ∀ entry, op ≠ .storeDirty entry) : GlanceMay φ op :=
  ⟨fun entry hdue => absurd (hφ.symm.trans hdue) (by simp), fun entry hop => absurd hop (h entry)⟩

theorem glanceMay_distant (hφ : φ.due = none) (h : isFlag op = false) : GlanceMay φ op := by
  apply glance_may hφ
  rintro entry rfl
  cases h

theorem due_frame (h : isFlag op = false) (ans : Ans op) : (glanceAfter φ op ans).due = φ.due := by
  cases op <;> first | rfl | (cases ans <;> rfl) | cases h

theorem glance_distant {p : RegistryProg α} (h : p.All (isFlag · = false) R) (hφ : φ.due = none) :
    Obeys glanceProtocol (fun a ψ => R a ∧ ψ.due = none) p φ := by
  induction p generalizing φ with
  | done a => exact ⟨h, hφ⟩
  | act op next ih =>
    exact ⟨glanceMay_distant hφ h.1, fun ans => ih ans (h.2 ans) ((due_frame h.1 ans).trans hφ)⟩

theorem timed_fetchTools_eq (entry : Entry) : timed (fetchTools entry) =
    .act .poll fun fired => if fired then .done none else
      .act (.listRequest entry) fun _ => .act .poll fun fired => if fired then .done none else
        .act (.listReply entry) fun reply => .done (some reply) := rfl

theorem glance_fetch (hφ : φ.due = none) :
    Obeys glanceProtocol (fun out ψ => ψ.due = none ∧ ((∀ fresh, out ≠ some (.ok fresh)) → ψ.failed = true))
      (timed (fetchTools entry)) φ := by
  rw [timed_fetchTools_eq]
  refine ⟨glanceMay_distant hφ rfl, fun fired => ?_⟩
  cases fired with
  | true => exact ⟨hφ, fun _ => rfl⟩
  | false =>
    refine ⟨glanceMay_distant hφ rfl, fun _ => ⟨glanceMay_distant hφ rfl, fun fired => ?_⟩⟩
    cases fired with
    | true => exact ⟨hφ, fun _ => rfl⟩
    | false =>
      refine ⟨glanceMay_distant hφ rfl, fun reply => ?_⟩
      cases reply with
      | error e => exact ⟨hφ, fun _ => rfl⟩
      | ok fresh => exact ⟨hφ, fun h => absurd rfl (h fresh)⟩

/-- The flag is set again only after a failure, and a flag seen set is followed
up at once. -/
theorem glance_ensureFresh (hφ : φ.due = none) :
    Obeys glanceProtocol (fun _ ψ => ψ.due = none) (ensureFresh entry server) φ := by
  refine ⟨glance_may hφ (by simp), fun dirty => ?_⟩
  cases dirty with
  | false => exact hφ
  | true =>
    refine ⟨⟨?_, by simp⟩, fun was => ?_⟩
    · rintro _ ⟨⟩
      rfl
    cases was with
    | false => exact rfl
    | true =>
      refine obeys_bind (p := timed (fetchTools entry)) (obeys_mono (fun out ψ hψ => ?_)
        (glance_fetch rfl))
      obtain ⟨hdue, hfailed⟩ := hψ
      rcases out with _ | e | fresh
      · exact ⟨⟨by simp [hdue], fun _ _ => hfailed (by simp)⟩, fun _ => hdue⟩
      · exact ⟨⟨by simp [hdue], fun _ _ => hfailed (by simp)⟩, fun _ => hdue⟩
      · have hwrite : (withLock (.toolsWrite entry) (doing (.writeTools entry fresh))).All
            (isFlag · = false) (fun _ => True) := withLock_all rfl rfl ⟨rfl, fun _ => trivial⟩
        exact obeys_bind (obeys_mono (fun _ _ h => h.2) (glance_distant hwrite hdue))

theorem readInventory_unflagged (entry : Entry) :
    (readInventory entry).All (isFlag · = false) (fun _ => True) :=
  withLock_all rfl rfl ⟨rfl, fun _ => trivial⟩

theorem getOrConnect_unflagged (config : TomlConfig) (server : Text) :
    (getOrConnect config server).All (isFlag · = false) (fun _ => True) := by
  refine all_mono (fun op h => ?_) (fun _ _ => trivial) (getOrConnect_connects config)
  have huse := h.2
  cases op <;> first | rfl | cases huse

/-- Whatever comes, no flag is left that was seen set. -/
abbrev Looked {α : Type} : Outcome α → Glance → Prop :=
  Comes (fun _ ψ => ψ.due = none) fun _ ψ => ψ.due = none

theorem looked_getOrConnect (config : TomlConfig) (hφ : φ.due = none) :
    Obeys glanceProtocol Looked (getOrConnect config server) φ :=
  obeys_mono (fun _ _ h => comes_same.mpr h.2)
    (glance_distant (getOrConnect_unflagged config server) hφ)

theorem looked_refresh (entry : EntryOf server) (φ : Glance) (hφ : φ.due = none) :
    Obeys glanceProtocol Looked (ensureFresh entry.1 server) φ :=
  obeys_mono (fun _ _ h => comes_same.mpr h) (glance_ensureFresh hφ)

theorem looked_read (entry : EntryOf server) (φ : Glance) (hφ : φ.due = none) :
    Obeys glanceProtocol (fun _ ψ => ψ.due = none) (readInventory entry.1) φ :=
  obeys_mono (fun _ _ h => h.2) (glance_distant (readInventory_unflagged entry.1) hφ)

theorem glance_inventory (config : TomlConfig) (hφ : φ.due = none) :
    Obeys glanceProtocol Looked (inventory config server) φ :=
  inventory_walk (looked_getOrConnect config hφ) looked_refresh looked_read fun _ _ _ hψ => hψ

theorem glance_callTool (config : TomlConfig) (tool : Text) (arguments : Option JsonObject)
    (hφ : φ.due = none) :
    Obeys glanceProtocol Looked (callTool config server tool arguments) φ := by
  refine callTool_walk (looked_getOrConnect config hφ) looked_refresh looked_read
    (fun _ _ _ hψ => hψ) fun entry _ ψ hψ _ => ?_
  have hforward : (forwardCall entry.1 tool arguments).All (isFlag · = false) (fun _ => True) :=
    ⟨rfl, fun _ => ⟨rfl, fun _ => trivial⟩⟩
  refine obeys_mono (fun out _ h => ?_) (glance_distant (timed_all rfl hforward) hψ)
  rcases out with _ | e | result <;> exact h.2

theorem glance_serveCall (config : TomlConfig) (call : Call) :
    Obeys glanceProtocol (fun _ ψ => ψ.due = none) (serveCall config call) {} := by
  cases call with
  | connect server =>
    exact obeys_bind (obeys_mono (fun _ _ h => h.2)
      (glance_distant (getOrConnect_unflagged config server) rfl))
  | inventory server =>
    exact obeys_bind (obeys_mono (fun _ _ => comes_same.mp) (glance_inventory config rfl))
  | callTool server tool arguments =>
    exact obeys_bind (obeys_mono (fun _ _ => comes_same.mp)
      (glance_callTool config tool arguments rfl))

end Glances

section Histories
variable {config : TomlConfig}

/-- `on_tool_list_changed` runs for the entry. -/
def Announces (entry : Entry) : RegistryEvent config → Prop
  | .outside (.handled e) => e = entry
  | _ => False

def Heard (entry : Entry) (es : List (RegistryEvent config)) : Prop := ∃ e ∈ es, Announces entry e

def After (entry : Entry) (happens : List (RegistryEvent config) → RegistryEvent config → Prop)
    (es : List (RegistryEvent config)) : Prop :=
  Heard entry es ∧ Since (Announces entry) happens es

/-- The task enters `ensure_fresh`. -/
def Begins (i : ℕ) (entry : Entry) (_ : List (RegistryEvent config)) : RegistryEvent config → Prop
  | .act j (.loadDirty e) _ => j = i ∧ e = entry
  | _ => False

def Receives (i : ℕ) (entry : Entry) (l : Listing) (_ : List (RegistryEvent config)) :
    RegistryEvent config → Prop
  | .act j (.listReply e) (.ok tools) => j = i ∧ e = entry ∧ tools = l
  | _ => False

def Fills (i : ℕ) (entry : Entry) (l : Listing) : RegistryEvent config → Prop
  | .act j (.writeTools e tools) _ | .act j (.newEntry e tools) _ => j = i ∧ e = entry ∧ tools = l
  | _ => False

def FillsFresh (entry : Entry) (l : Listing) (es : List (RegistryEvent config))
    (e : RegistryEvent config) : Prop :=
  ∃ i, Fills i entry l e ∧ After entry (Requests i entry) es ∧
    Since (Requests i entry []) (Receives i entry l) es

def FreshList (entry : Entry) (l : Listing) (es : List (RegistryEvent config)) : Prop :=
  Since (fun e => ∃ i old, Fills i entry old e) (FillsFresh entry l) es

/-- No future is dropped, no timer fires, no upstream answers with an error, and
there is one notification for the entry, which is connected then. -/
structure Calm (entry : Entry) (es : List (RegistryEvent config)) (σ : Shared)
    (e : RegistryEvent config) : Prop where
  undropped : ∀ i, ¬ Cancels i e
  untimed : ∀ i, e ≠ .act i .poll true
  answered : ∀ i asked error, e ≠ .act i (.listReply asked) (.error error)
  single : Announces entry e → ¬ Heard entry es ∧ σ.entries entry.server = some ⟨entry, rfl⟩

variable {es : List (RegistryEvent config)} {e : RegistryEvent config} {entry : Entry} {l : Listing}
  {i : ℕ}

theorem heard_cons : Heard entry (e::es) ↔ Announces entry e ∨ Heard entry es := by
  simp [Heard]

theorem after_cons {happens : List (RegistryEvent config) → RegistryEvent config → Prop}
    (he : ¬ Announces entry e) :
    After entry happens (e::es) ↔ Heard entry es ∧ happens es e ∨ After entry happens es := by
  simp only [After, heard_cons, Since, he, false_or, not_false_eq_true, true_and]
  exact and_or_left

theorem after_announced {happens : List (RegistryEvent config) → RegistryEvent config → Prop}
    (he : Announces entry e) (hne : ¬ happens es e) : ¬ After entry happens (e::es) := by
  rintro ⟨_, hnow | ⟨hnot, _⟩⟩
  · exact hne hnow
  · exact hnot he

theorem fresh_cons (he : ∀ i old, ¬ Fills i entry old e) :
    FreshList entry l (e::es) ↔ FreshList entry l es := by
  have hnew : ¬ FillsFresh entry l es e := by
    rintro ⟨i, hf, _⟩
    exact he i l hf
  simp [FreshList, Since, he, hnew]

theorem fresh_heard (h : FreshList entry l es) : Heard entry es := by
  induction es with
  | nil => cases h
  | cons e es ih =>
    apply heard_cons.mpr
    rcases h with ⟨i, _, hafter, _⟩ | ⟨_, hold⟩
    · exact Or.inr hafter.1
    · exact Or.inr (ih hold)

theorem fetched_after {φ : Trail} {op : Op} {ans : Ans op}
    (h : (after φ op ans).fetched = some (entry, l)) :
    @Receives config i entry l es (.act i op ans) ∨
      φ.fetched = some (entry, l) ∧ ¬ @Requests config i entry [] (.act i op ans) := by
  cases op <;> first
    | exact Or.inr ⟨h, fun hr => hr⟩
    | cases h
    | (cases ans <;> exact Or.inr ⟨h, fun hr => hr⟩)
    | skip
  case serve => cases ans <;> first | cases h | exact Or.inr ⟨h, fun hr => hr⟩
  case swapDirty => cases ans <;> first | cases h | exact Or.inr ⟨h, fun hr => hr⟩
  case listReply asked =>
    cases ans with
    | error _ => exact Or.inr ⟨h, fun hr => hr⟩
    | ok tools =>
      cases h
      exact Or.inl ⟨rfl, rfl, rfl⟩

end Histories

section Phases
variable {config : TomlConfig} {es : List (RegistryEvent config)} {e : RegistryEvent config}
  {entry : Entry} {σ σ' : Shared} {i : ℕ} {op : Op} {ans : Ans op}

/-- What has become of the notification: whoever has seen the flag it raised is
about to take it, who has taken it fetches a list, and that list is cached. -/
inductive Noticed (entry : Entry) (es : List (RegistryEvent config)) (σ : Shared) : Prop
  | before (unheard : ¬ Heard entry es) (clean : σ.dirty entry = false)
      (unowed : ∀ i, ¬ Owes es i entry)
  | raised (there : σ.entries entry.server = some ⟨entry, rfl⟩) (heard : Heard entry es)
      (flagged : σ.dirty entry = true) (unowed : ∀ i, ¬ Owes es i entry)
      (stale : ∀ l, ¬ FreshList entry l es)
      (due : ∀ i, After entry (Begins i entry) es →
        (trail glanceProtocol i es).due = some entry)
  | taken (w : ℕ) (there : σ.entries entry.server = some ⟨entry, rfl⟩) (heard : Heard entry es)
      (clean : σ.dirty entry = false) (owed : ∀ i, Owes es i entry ↔ i = w)
      (stale : ∀ l, ¬ FreshList entry l es)
      (asked : Trail.Asking (trail registryProtocol w es) entry → After entry (Requests w entry) es)
  | settled (l : Listing) (there : σ.entries entry.server = some ⟨entry, rfl⟩)
      (heard : Heard entry es) (clean : σ.dirty entry = false) (unowed : ∀ i, ¬ Owes es i entry)
      (cached : σ.cached entry = some l) (fresh : FreshList entry l es)

structure Quiet (entry : Entry) (es : List (RegistryEvent config)) (σ σ' : Shared)
    (e : RegistryEvent config) : Prop where
  unannounced : ¬ Announces entry e
  unfilled : ∀ i l, ¬ Fills i entry l e
  dirty : σ'.dirty entry = σ.dirty entry
  cached : σ'.cached entry = σ.cached entry
  there : σ.entries entry.server = some ⟨entry, rfl⟩ → σ'.entries entry.server = some ⟨entry, rfl⟩
  owes : ∀ i, Owes (e::es) i entry ↔ Owes es i entry
  due : σ.dirty entry = true → ∀ i,
    Begins i entry es e ∨ (trail glanceProtocol i es).due = some entry →
      (trail glanceProtocol i (e::es)).due = some entry
  asking : ∀ i, Owes es i entry → Trail.Asking (trail registryProtocol i (e::es)) entry →
    Requests i entry es e ∨ Trail.Asking (trail registryProtocol i es) entry

theorem noticed_quiet (h : Noticed entry es σ) (hq : Quiet entry es σ σ' e) :
    Noticed entry (e::es) σ' := by
  have hstale : ∀ l, FreshList entry l (e::es) ↔ FreshList entry l es :=
    fun l => fresh_cons hq.unfilled
  have hheard : Heard entry es → Heard entry (e::es) := fun hh => heard_cons.mpr (Or.inr hh)
  have hunowed : (∀ i, ¬ Owes es i entry) → ∀ i, ¬ Owes (e::es) i entry :=
    fun hu i ho => hu i ((hq.owes i).mp ho)
  cases h with
  | before unheard clean unowed =>
    refine .before ?_ (hq.dirty.trans clean) (hunowed unowed)
    simpa [heard_cons, hq.unannounced] using unheard
  | raised there heard flagged unowed stale due =>
    refine .raised (hq.there there) (hheard heard) (hq.dirty.trans flagged) (hunowed unowed)
      (fun l hl => stale l ((hstale l).mp hl)) fun i hi => ?_
    apply hq.due flagged i
    rcases (after_cons hq.unannounced).mp hi with ⟨_, hnow⟩ | hold
    · exact Or.inl hnow
    · exact Or.inr (due i hold)
  | taken w there heard clean owed stale asked =>
    refine .taken w (hq.there there) (hheard heard) (hq.dirty.trans clean)
      (fun i => (hq.owes i).trans (owed i)) (fun l hl => stale l ((hstale l).mp hl)) fun ha => ?_
    rw [after_cons hq.unannounced]
    rcases hq.asking w ((owed w).mpr rfl) ha with hnow | hold
    · exact Or.inl ⟨heard, hnow⟩
    · exact Or.inr (asked hold)
  | settled l there heard clean unowed cached fresh =>
    exact .settled l (hq.there there) (hheard heard) (hq.dirty.trans clean) (hunowed unowed)
      (hq.cached.trans cached) ((hstale l).mpr fresh)

theorem cached_frame (hop : isSignalling op = false) (hn : ∀ tools, op ≠ .newEntry entry tools) :
    (effect i σ op ans).cached entry = σ.cached entry := by
  cases op <;> first | rfl | (cases ans <;> rfl) | (cases hop; done) | skip
  case newEntry other tools =>
    have hne : entry ≠ other := by
      rintro rfl
      exact hn tools rfl
    simp [effect, Shared.install, hne]

theorem due_after {φ : Glance} (hg : GlanceMay φ op) (ha : Answers i σ op ans)
    (hswap : op ≠ .swapDirty entry) (hd : σ.dirty entry = true)
    (h : op = .loadDirty entry ∨ φ.due = some entry) :
    (glanceAfter φ op ans).due = some entry := by
  rcases h with rfl | hdue
  · rw [show ans = true from ha.trans hd]
    rfl
  · exact absurd (hg.due entry hdue) hswap

theorem quiet_act (hc : Consistent (fun i => trail registryProtocol i es) σ)
    (hm : may (trail registryProtocol i es) op) (hg : GlanceMay (trail glanceProtocol i es) op)
    (ha : Answers i σ op ans)
    (hfill : ∀ j l, ¬ @Fills config j entry l (.act i op ans))
    (hdirty : (effect i σ op ans).dirty entry = σ.dirty entry)
    (hcached : (effect i σ op ans).cached entry = σ.cached entry)
    (howes : (after (trail registryProtocol i es) op ans).refetch = some entry ↔ Owes es i entry)
    (hswap : σ.dirty entry = true → op ≠ .swapDirty entry) :
    Quiet entry es σ (effect i σ op ans) (.act i op ans) := by
  refine ⟨fun h => h, hfill, hdirty, hcached, entries_kept hc hm, fun j => ?_, fun hd j hj => ?_,
    fun j ho hasking => ?_⟩
  · rw [owes_act]
    split_ifs with hij
    · subst hij
      exact howes
    · exact Iff.rfl
  · by_cases hij : i = j
    · subst hij
      rw [trail, if_pos rfl]
      refine due_after hg ha (hswap hd) hd (hj.imp_left fun hb => ?_)
      cases op <;> first | (cases hb; done) | skip
      rw [hb.2]
    · rw [trail, if_neg hij]
      refine hj.resolve_left fun hb => ?_
      cases op <;> first | exact hb | exact hij hb.1
  · by_cases hij : i = j
    · subst hij
      rw [trail, if_pos rfl] at hasking
      rcases asking_after hm (howes.mpr ho) hasking with rfl | ⟨_, hold⟩
      · exact Or.inl ⟨rfl, rfl⟩
      · exact Or.inr hold
    · rw [trail, if_neg hij] at hasking
      exact Or.inr hasking

theorem quiet_restart (hann : ¬ Announces entry e) (hfill : ∀ j l, ¬ Fills j entry l e)
    (hbegin : ∀ j, ¬ Begins j entry es e)
    (ht : (fun j => trail registryProtocol j (e::es)) =
      Function.update (fun j => trail registryProtocol j es) i {})
    (hg : (fun j => trail glanceProtocol j (e::es)) =
      Function.update (fun j => trail glanceProtocol j es) i {})
    (hr : (trail registryProtocol i es).refetch = none)
    (hd : (trail glanceProtocol i es).due = none) : Quiet entry es σ σ e := by
  refine ⟨hann, hfill, rfl, rfl, fun h => h, fun j => ?_, fun _ j hj => ?_, fun j ho hasking => ?_⟩
  all_goals
    have htj := congrFun ht j
    have hgj := congrFun hg j
    dsimp only at htj hgj
    rcases eq_or_ne j i with rfl | hne
  · rw [Owes, Owes, htj, Function.update_self, hr]
  · rw [Owes, Owes, htj, Function.update_of_ne hne]
  · exact absurd (hd.symm.trans (hj.resolve_left (hbegin j))) (by simp)
  · rw [hgj, Function.update_of_ne hne]
    exact hj.resolve_left (hbegin j)
  · exact absurd (hr.symm.trans ho) (by simp)
  · rw [htj, Function.update_of_ne hne] at hasking
    exact Or.inr hasking

end Phases

section Steps
variable {config : TomlConfig} {es : List (RegistryEvent config)} {entry : Entry} {σ : Shared}
  {i : ℕ} {op : Op} {ans : Ans op}

theorem served_otherwise {server : Text} {new : EntryOf server}
    (hl : Lineage (fun i => trail registryProtocol i es) σ)
    (ha : Answers i σ (.serve server) (.ok new))
    (hin : σ.entries entry.server = some ⟨entry, rfl⟩) : entry ≠ new.1 := by
  rintro rfl
  exact absurd (show new.1.serial = σ.serials from ha) (ne_of_lt (hl.inserted new.1 hin).1)

theorem noticed_connecting (h : Noticed entry es σ)
    (hl : Lineage (fun i => trail registryProtocol i es) σ) {tools : Listing} {u : Unit}
    (hm : may (trail registryProtocol i es) (.newEntry entry tools)) :
    Noticed entry (.act i (.newEntry entry tools) u::es) (σ.install entry tools) := by
  have hout := hl.unseen i entry hm.1
  cases h with
  | before unheard clean unowed =>
    refine .before (by simpa [heard_cons, Announces] using unheard) clean fun j ho => unowed j ?_
    rw [owes_act] at ho
    split_ifs at ho
    · exact ho
    · exact ho
  | raised there | taken _ there | settled _ there => exact absurd there hout

theorem noticed_serving (h : Noticed entry es σ)
    (hl : Lineage (fun i => trail registryProtocol i es) σ) {new : EntryOf entry.server}
    (hnew : new.1 = entry) (ha : Answers i σ (.serve entry.server) (.ok new)) :
    Noticed entry (.act i (.serve entry.server) (.ok new)::es) (σ.open new) := by
  cases h with
  | before unheard clean unowed =>
    refine .before (by simpa [heard_cons, Announces] using unheard) ?_ fun j ho => unowed j ?_
    · simp [Shared.open, hnew]
    · rw [owes_act] at ho
      split_ifs at ho
      · exact ho
      · exact ho
  | raised there | taken _ there | settled _ there =>
    exact absurd hnew.symm (served_otherwise hl ha there)

theorem noticed_taken (h : Noticed entry es σ) (hd : σ.dirty entry = true) :
    Noticed entry (.act i (.swapDirty entry) true::es) (σ.setDirty entry false) := by
  cases h with
  | raised there heard flagged unowed stale due =>
    refine .taken i there (heard_cons.mpr (Or.inr heard)) (by simp [Shared.setDirty]) (fun j => ?_)
      (fun l hl => stale l ((fresh_cons (fun _ _ hf => by cases hf)).mp hl)) fun ha => ?_
    · rw [owes_act]
      split_ifs with hij
      · simp [after, hij]
      · exact iff_of_false (unowed j) (Ne.symm hij)
    · simp [trail, after, Trail.Asking] at ha
  | before _ clean | taken _ _ _ clean | settled _ _ _ clean =>
    exact absurd (clean.symm.trans hd) (by simp)

theorem noticed_settled (h : Noticed entry es σ) {fresh : Listing} {u : Unit}
    (hm : may (trail registryProtocol i es) (.writeTools entry fresh))
    (hreceived : Since (Requests i entry []) (Receives i entry fresh) es) :
    Noticed entry (.act i (.writeTools entry fresh) u::es) (σ.install entry fresh) := by
  obtain ⟨howes, hfetched, _⟩ := hm
  cases h with
  | taken w there heard clean owed stale asked =>
    obtain rfl : i = w := (owed i).mp howes
    refine .settled fresh there (heard_cons.mpr (Or.inr heard)) clean (fun j hj => ?_)
      (by simp [Shared.install]) ?_
    · rw [owes_act] at hj
      split_ifs at hj with hij
      · cases hj
      · exact hij ((owed j).mp hj).symm
    · exact Or.inl ⟨i, ⟨rfl, rfl, rfl⟩, asked (Or.inr ⟨fresh, hfetched⟩), hreceived⟩
  | before _ _ unowed | raised _ _ _ unowed | settled _ _ _ _ unowed => exact absurd howes (unowed i)

theorem quiet_silent (hc : Consistent (fun i => trail registryProtocol i es) σ)
    (hm : may (trail registryProtocol i es) op) (hg : GlanceMay (trail glanceProtocol i es) op)
    (ha : Answers i σ op ans) (hop : isSignalling op = false)
    (hnew : ∀ tools, op ≠ .newEntry entry tools) :
    Quiet entry es σ (effect i σ op ans) (.act i op ans) := by
  refine quiet_act hc hm hg ha (fun j l hf => ?_) (congrFun (dirty_frame hop) entry)
    (cached_frame hop hnew) (by rw [refetch_frame hop, Owes]) ?_
  · cases op <;> first | exact hf | (cases hop; done) | skip
    exact hnew _ (by rw [hf.2.1])
  · rintro _ rfl
    cases hop

theorem quiet_swap {other : Entry} {seen : Bool}
    (hc : Consistent (fun i => trail registryProtocol i es) σ)
    (hm : may (trail registryProtocol i es) (.swapDirty other))
    (hg : GlanceMay (trail glanceProtocol i es) (.swapDirty other))
    (ha : Answers i σ (.swapDirty other) seen) (hthis : ¬ (entry = other ∧ σ.dirty entry = true)) :
    Quiet entry es σ (σ.setDirty other false) (.act i (.swapDirty other) seen) := by
  have hnone : ¬ Owes es i entry := fun ho => absurd (hm.2.1.symm.trans ho) (by simp)
  refine quiet_act hc hm hg ha (fun j l hf => hf) ?_ rfl (iff_of_false (fun hafter => ?_) hnone) ?_
  · by_cases hother : entry = other
    · subst hother
      simpa [effect, Shared.setDirty] using hthis
    · simp [effect, Shared.setDirty, hother]
  · cases seen with
    | false => exact hnone hafter
    | true => exact hthis ⟨(Option.some.inj hafter).symm, (Option.some.inj hafter) ▸ ha.symm⟩
  · rintro hd heq
    exact hthis ⟨(Op.swapDirty.inj heq).symm, hd⟩

theorem quiet_write {other : Entry} {fresh : Listing} {u : Unit}
    (hc : Consistent (fun i => trail registryProtocol i es) σ)
    (hm : may (trail registryProtocol i es) (.writeTools other fresh))
    (hg : GlanceMay (trail glanceProtocol i es) (.writeTools other fresh)) (hother : entry ≠ other) :
    Quiet entry es σ (σ.install other fresh) (.act i (.writeTools other fresh) u) := by
  have hnone : ¬ Owes es i entry := fun ho => hother (Option.some.inj (hm.1.symm.trans ho)).symm
  refine quiet_act hc hm hg trivial (fun j l hf => hother hf.2.1.symm) rfl
    (by simp [effect, Shared.install, hother]) (iff_of_false (fun hafter => ?_) hnone)
    (fun _ => by simp)
  cases hafter

theorem quiet_serve {server : Text} {out : Except Text (EntryOf server)}
    (hc : Consistent (fun i => trail registryProtocol i es) σ)
    (hm : may (trail registryProtocol i es) (.serve server))
    (hg : GlanceMay (trail glanceProtocol i es) (.serve server))
    (ha : Answers i σ (.serve server) out) (hnew : ∀ new, out = .ok new → new.1 ≠ entry) :
    Quiet entry es σ (effect i σ (.serve server) out) (.act i (.serve server) out) := by
  cases out with
  | error message =>
    exact quiet_act hc hm hg ha (fun j l hf => hf) rfl rfl Iff.rfl (fun _ => by simp)
  | ok new =>
    have hne : entry ≠ new.1 := Ne.symm (hnew new rfl)
    exact quiet_act hc hm hg ha (fun j l hf => hf) (by simp [effect, Shared.open, hne])
      (by simp [effect, Shared.open, hne]) Iff.rfl (fun _ => by simp)

theorem noticed_act (h : Noticed entry es σ) (hk : Calm entry es σ (.act i op ans))
    (hc : Consistent (fun i => trail registryProtocol i es) σ)
    (hl : Lineage (fun i => trail registryProtocol i es) σ)
    (hreceived : ∀ fresh, (trail registryProtocol i es).fetched = some (entry, fresh) →
      Since (Requests i entry []) (Receives i entry fresh) es)
    (hunfailed : (trail glanceProtocol i es).failed = false)
    (hm : may (trail registryProtocol i es) op) (hg : GlanceMay (trail glanceProtocol i es) op)
    (ha : Answers i σ op ans) : Noticed entry (.act i op ans::es) (effect i σ op ans) := by
  cases hop : isSignalling op with
  | false =>
    by_cases hnew : ∃ tools, op = .newEntry entry tools
    · obtain ⟨tools, rfl⟩ := hnew
      exact noticed_connecting h hl hm
    · exact noticed_quiet h (quiet_silent hc hm hg ha hop fun tools ht => hnew ⟨tools, ht⟩)
  | true =>
    cases op <;> first | (cases hop; done) | skip
    case abandon => exact absurd rfl (hk.undropped i)
    case storeDirty other =>
      exact absurd (hunfailed.symm.trans (hg.failed other rfl)) (by simp)
    case swapDirty other =>
      by_cases hthis : entry = other ∧ σ.dirty entry = true
      · obtain ⟨rfl, hd⟩ := hthis
        obtain rfl : ans = true := ha.trans hd
        exact noticed_taken h hd
      · exact noticed_quiet h (quiet_swap hc hm hg ha hthis)
    case writeTools other fresh =>
      by_cases hother : entry = other
      · subst hother
        exact noticed_settled h hm (hreceived fresh hm.2.1)
      · exact noticed_quiet h (quiet_write hc hm hg hother)
    case serve server =>
      by_cases hnew : ∃ new, ans = .ok new ∧ new.1 = entry
      · obtain ⟨new, rfl, hnew⟩ := hnew
        obtain rfl : server = entry.server := new.2.symm.trans (congrArg Entry.server hnew)
        exact noticed_serving h hl hnew ha
      · exact noticed_quiet h (quiet_serve hc hm hg ha fun new hout heq => hnew ⟨new, hout, heq⟩)

theorem noticed_outside {e : Outside} {σ' : Shared} (h : Noticed entry es σ)
    (hk : Calm entry es σ (.outside e)) (ho : σ.outside e = some σ') :
    Noticed entry (.outside e::es) σ' := by
  have hentries := (outside_frame ho).2.2.1
  by_cases hann : @Announces config entry (.outside e)
  · obtain ⟨hfirst, hin⟩ := hk.single hann
    cases e <;> first | (cases hann; done) | skip
    rename_i other
    obtain rfl : other = entry := hann
    simp only [Shared.outside] at ho
    split_ifs at ho
    cases ho
    cases h with
    | before unheard clean unowed =>
      refine .raised hin (heard_cons.mpr (Or.inl rfl)) (by simp [Shared.setDirty]) unowed
        (fun l hl => ?_) fun i hi => absurd hi (after_announced rfl fun hb => hb)
      exact unheard (fresh_heard ((fresh_cons (fun _ _ hf => by cases hf)).mp hl))
    | raised _ heard | taken _ _ heard | settled _ _ heard => exact absurd heard hfirst
  · refine noticed_quiet h ⟨hann, fun _ _ hf => hf, ?_, congrFun (cached_outside ho).1 entry, ?_,
      fun _ => Iff.rfl, fun _ i hi => hi.resolve_left fun hb => hb, fun _ _ ha => Or.inr ha⟩
    · cases e <;> simp only [Shared.outside] at ho
      case change | drift =>
        cases ho
        rfl
      case handled other =>
        split_ifs at ho
        cases ho
        have hne : entry ≠ other := fun heq => hann heq.symm
        simp [Shared.setDirty, hne]
      case snapshot =>
        split at ho
        · cases ho
          rfl
        · cases ho
    · rw [hentries]
      exact fun hin => hin

end Steps

end FaninMcp.NotifiedEntry
