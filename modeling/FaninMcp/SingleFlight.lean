import FaninMcp.RegistryInvariant

/-!
# Single-flight connection

Over every run of registry calls, with connects that succeed, fail, time out or
are dropped: one attempt at a time for a server, one insertion, and the inserted
entry is the one everybody gets.
-/

set_option autoImplicit false

namespace FaninMcp.SingleFlight
open Foundation.RustText Foundation.JsonText Foundation.AsyncPrograms FaninMcp.ConfigModel
  FaninMcp.ErrorModel FaninMcp.RegistryModel FaninMcp.RegistryWorld FaninMcp.RegistryProtocol
  FaninMcp.RegistryObeys FaninMcp.RegistryInvariant

section Runs
variable {config : TomlConfig} {tools : Entry → List Tool}
  {K : List (Event registryWorld (registryService config)) → Shared →
    Event registryWorld (registryService config) → Prop}
  {es : List (Event registryWorld (registryService config))}
  {σ σ' : System registryWorld (registryService config)}

/-- The task has begun a connection attempt to the server, and neither ended it
nor been ended itself. -/
def Attempting (es : List (Event registryWorld (registryService config))) (i : ℕ) (server : Text) :
    Prop :=
  (trail registryProtocol i es).attempt = some server

theorem registry_consistent (h : Run (Shared.initial tools) K es σ) :
    Consistent (fun i => trail registryProtocol i es) σ.shared :=
  run_consistent (obeys_serveCall config) (fun _ _ _ hpost => hpost.clean) h

theorem one_attempt (h : Run (Shared.initial tools) K es σ) {i j : ℕ} {server : Text}
    (hi : Attempting es i server) (hj : Attempting es j server) : i = j := by
  have hc := registry_consistent h
  exact guarding_unique hc (hc.absent i server (hc.attempt i server hi)).1
    (hc.absent j server (hc.attempt j server hj)).1

theorem step_keeps_entry (h : Run (Shared.initial tools) K es σ)
    {e : Event registryWorld (registryService config)} (hs : Step σ e σ') {server : Text}
    {entry : EntryOf server} (he : σ.shared.entries server = some entry) :
    σ'.shared.entries server = some entry := by
  have hc := registry_consistent h
  cases hs with
  | spawn _ _ => exact he
  | act hi hp =>
    have hm := (run_obeys (obeys_serveCall config) h hi).1
    rw [assign_shared, hp.2]
    exact entries_kept hc hm he
  | finish _ => exact he
  | drop _ _ => exact he
  | outside ho =>
    have hsame := (outside_frame ho).2.2.1
    dsimp only at hsame ⊢
    rw [hsame]
    exact he

theorem run_keeps_entry {later earlier : List (Event registryWorld (registryService config))}
    (h : Run (Shared.initial tools) K (later ++ earlier) σ) {server : Text}
    {entry : EntryOf server} (he : ∀ τ : System registryWorld (registryService config),
      Run (Shared.initial tools) K earlier τ → τ.shared.entries server = some entry) :
    σ.shared.entries server = some entry := by
  induction later generalizing σ with
  | nil => exact he σ h
  | cons e later ih =>
    cases h with
    | step hr _ hs => exact step_keeps_entry hr hs (ih hr)

theorem insert_entry {i : ℕ} {server : Text} {entry : EntryOf server} {u : Unit}
    {earlier : List (Event registryWorld (registryService config))}
    (h : Run (Shared.initial tools) K (.act i (.entriesInsert server entry) u::earlier) σ) :
    σ.shared.entries server = some entry := by
  cases h with
  | step _ _ hs =>
    cases hs with
    | act _ hp =>
      rw [assign_shared, hp.2]
      simp [effect, Shared.insertEntry]

theorem inserted_entry {i : ℕ} {server : Text} {entry : EntryOf server} {u : Unit}
    {later earlier : List (Event registryWorld (registryService config))}
    (h : Run (Shared.initial tools) K (later ++ .act i (.entriesInsert server entry) u::earlier) σ) :
    σ.shared.entries server = some entry :=
  run_keeps_entry h fun _ hr => insert_entry hr

theorem act_absent {e : Event registryWorld (registryService config)} {i : ℕ} {op : Op}
    {ans : Ans op} {server : Text} (he : e = .act i op ans)
    (hop : op = .connectBegin server ∨ ∃ entry, op = .entriesInsert server entry)
    (h : Run (Shared.initial tools) K es σ) (hs : Step σ e σ') :
    σ.shared.entries server = none := by
  subst he
  have hm := may_of_step (obeys_serveCall config) h hs
  rcases hop with rfl | ⟨entry, rfl⟩
  · exact ((registry_consistent h).absent i server hm.1).2
  · exact ((registry_consistent h).absent i server hm.2.1).2

theorem no_more_after_insert {i j : ℕ} {server : Text} {entry : EntryOf server} {u : Unit}
    {later earlier : List (Event registryWorld (registryService config))}
    (h : Run (Shared.initial tools) K (later ++ .act i (.entriesInsert server entry) u::earlier) σ)
    {op : Op} {ans : Ans op} (hmem : .act j op ans ∈ later) :
    op ≠ .connectBegin server ∧ ∀ other, op ≠ .entriesInsert server other := by
  obtain ⟨last, rest, rfl⟩ := List.append_of_mem hmem
  rw [List.append_assoc, List.cons_append] at h
  obtain ⟨τ, τ', hr, _, hs⟩ := run_event h rfl
  have hsome := inserted_entry hr
  constructor
  · rintro rfl
    rw [act_absent rfl (Or.inl rfl) hr hs] at hsome
    cases hsome
  · rintro other rfl
    rw [act_absent rfl (Or.inr ⟨other, rfl⟩) hr hs] at hsome
    cases hsome

theorem caller_gets_entry {i : ℕ} {server : Text} {entry : Entry}
    {later earlier : List (Event registryWorld (registryService config))}
    (h : Run (Shared.initial tools) K
      (later ++ .finish i (.connect server) (.entry (.ok entry))::earlier) σ) :
    ∃ hs : entry.server = server, σ.shared.entries server = some ⟨entry, hs⟩ := by
  obtain ⟨τ, τ', hr, _, hs⟩ := run_event h rfl
  obtain ⟨rfl, hgot⟩ := (post_of_step (obeys_serveCall config) hr hs).connected _ _ rfl rfl
  rw [List.append_cons] at h
  refine ⟨rfl, run_keeps_entry h ?_⟩
  intro ρ hρ
  exact (registry_consistent hρ).got i entry hgot

/-- Only a successful attempt changes the map: what is in it was inserted by a
task that had just built it. -/
theorem entry_was_inserted (h : Run (Shared.initial tools) K es σ) {server : Text}
    {entry : EntryOf server} (he : σ.shared.entries server = some entry) :
    ∃ later i u earlier, es = later ++ .act i (.entriesInsert server entry) u::earlier ∧
      (trail registryProtocol i earlier).built = some entry.1 := by
  induction h with
  | start => cases he
  | @step es τ τ' e hr _ hs ih =>
    have hold : τ.shared.entries server = some entry →
        ∃ later i u earlier, e::es = later ++ .act i (.entriesInsert server entry) u::earlier ∧
          (trail registryProtocol i earlier).built = some entry.1 := by
      intro hτ
      obtain ⟨later, i, u, earlier, rfl, hb⟩ := ih hτ
      exact ⟨e::later, i, u, earlier, rfl, hb⟩
    have hstep := hs
    cases hs with
    | spawn _ _ => exact hold he
    | @act i _ op _ ans _ hi hp =>
      have hm := may_of_step (obeys_serveCall config) hr hstep
      rw [assign_shared, hp.2] at he
      rcases entries_frame i τ.shared op ans with
        hsame | ⟨other, new, rfl, hins⟩
      · exact hold (hsame ▸ he)
      · rw [hins] at he
        by_cases ho : server = other
        · subst ho
          rw [Function.update_self, Option.some.injEq] at he
          subst he
          exact ⟨[], i, ans, es, rfl, hm.2.2.1⟩
        · rw [Function.update_of_ne ho] at he
          exact hold he
    | finish _ => exact hold he
    | drop _ _ => exact hold he
    | outside ho =>
      have hsame := (outside_frame ho).2.2.1
      exact hold (hsame ▸ he)

theorem holder_runs (h : Run (Shared.initial tools) K es σ) {i : ℕ} {lock : Lock}
    (hi : i ∈ σ.shared.holders lock) : σ.tasks i ≠ none := by
  intro hnone
  have hlock := ((registry_consistent h).held i lock).mp hi
  rw [trail_idle h hnone] at hlock
  cases hlock

end Runs

section Retry
variable {config : TomlConfig} {tools : Entry → List Tool}
  {es : List (Event registryWorld (registryService config))}
  {σ : System registryWorld (registryService config)} {i : ℕ} {call : Call}

def Any (_ : List (Event registryWorld (registryService config))) (_ : Shared)
    (_ : Event registryWorld (registryService config)) : Prop := True

/-- A run can be continued to a state in which the task is left with the program
and the shared state is as given. -/
def Continues (es : List (Event registryWorld (registryService config))) (tools : Entry → List Tool)
    (i : ℕ) (call : Call) (p : RegistryProg Answer) (shared : Shared) : Prop :=
  ∃ more σ, Run (Shared.initial tools) Any (more ++ es) σ ∧ σ.tasks i = some (call, p) ∧
    σ.shared = shared

theorem continues_act (op : Op) (ans : Ans op) {next : Ans op → RegistryProg Answer}
    {shared : Shared} (h : Continues es tools i call (.act op next) shared)
    (ha : Answers i shared op ans) :
    Continues es tools i call (next ans) (effect i shared op ans) := by
  obtain ⟨more, σ, hr, hi, rfl⟩ := h
  exact ⟨_::more, _, Run.step hr trivial (Step.act hi ⟨ha, rfl⟩), assign_self _ _ _ _, rfl⟩

theorem unlock_lock {shared : Shared} {lock : Lock} (h : i ∉ shared.holders lock) :
    (shared.lock i lock).unlock i lock = shared := by
  have hfilter : (shared.holders lock).filter (· != i) = shared.holders lock := by
    rw [List.filter_eq_self]
    rintro j hj
    simp only [bne_iff_ne, ne_eq]
    rintro rfl
    exact h hj
  simp [Shared.unlock, Shared.lock, hfilter]

theorem withLock_bind {α β : Type} (lock : Lock) (body : RegistryProg α) (f : α → RegistryProg β) :
    (withLock lock body >>= f) = .act (.acquire lock) fun _ =>
      body >>= fun a => .act (.release lock) fun _ => f a := by
  rw [withLock_eq, act_bind]
  simp only [prog_bind_assoc, act_bind, done_bind]

theorem continues_lookup {server : Text} {f : Option (EntryOf server) → RegistryProg Answer}
    {shared : Shared} (h : Continues es tools i call (lookupEntry server >>= f) shared)
    (hw : shared.holders .entriesWrite = []) (hi : i ∉ shared.holders .entriesRead) :
    Continues es tools i call (f (shared.entries server)) shared := by
  have hfree : Answers i shared (.acquire .entriesRead) () := by
    simp [Answers, Shared.free, conflicts, hw]
  have hgot := continues_act (.entriesGet server) (shared.entries server)
    (continues_act (.acquire .entriesRead) () h hfree) rfl
  have hleft := continues_act (.release .entriesRead) () hgot trivial
  have hsame : effect i (effect i (effect i shared (.acquire .entriesRead) ()) (.entriesGet server)
      (shared.entries server)) (.release .entriesRead) () = shared := unlock_lock hi
  rwa [hsame] at hleft

theorem nameGuard_holders {shared : Shared} (h : ∀ lock, shared.holders lock = []) (server : Text)
    (guard : ℕ) (lock : Lock) : (((shared.lock i .initGuards).nameGuard server guard).unlock i
      .initGuards).holders lock = [] := by
  by_cases hl : lock = .initGuards
  · subst hl
    simp [Shared.unlock, Shared.nameGuard, Shared.lock, h]
  · simp [Shared.unlock, Shared.nameGuard, Shared.lock, hl, h]

/-- Once nothing runs, a later call for a server without an entry gets behind
the guard again and goes on to connect. -/
theorem can_retry (h : Run (Shared.initial tools) Any es σ) (hidle : ∀ j, σ.tasks j = none)
    {server : Text} (habsent : σ.shared.entries server = none) :
    ∃ guard shared, Continues es tools i (.connect server)
      (connectAbsent config server >>= fun outcome => do
        doing (.release (.init guard))
        return .entry (outcome.map Subtype.val)) shared := by
  have hempty : ∀ lock, σ.shared.holders lock = [] := fun lock =>
    List.eq_nil_iff_forall_not_mem.mpr fun j hj => holder_runs h hj (hidle j)
  have hspawn : Continues es tools i (.connect server)
      (serveCall config (.connect server)) σ.shared :=
    ⟨[_], _, Run.step h trivial (Step.spawn (Call.connect server) (hidle i)),
      assign_self _ _ _ _, rfl⟩
  rw [serveCall, getOrConnect, prog_bind_assoc] at hspawn
  have hmissed := continues_lookup hspawn (hempty _) (by simp [hempty])
  rw [habsent] at hmissed
  dsimp only at hmissed
  rw [prog_bind_assoc, withLock_bind] at hmissed
  have hentered := continues_act (.acquire .initGuards) () hmissed
    (by simp [Answers, Shared.free, hempty])
  have hnamed := continues_act (.guardEntry server)
    ((σ.shared.initGuards server).getD σ.shared.guards) hentered rfl
  have hleft := continues_act (.release .initGuards) () hnamed trivial
  have hfree := nameGuard_holders (i := i) hempty server
    ((σ.shared.initGuards server).getD σ.shared.guards)
  generalize hsh : effect i _ (.release .initGuards) () = shared at hleft
  have hshared : ∀ lock, shared.holders lock = [] := hsh ▸ hfree
  have hstill : shared.entries server = none := hsh ▸ habsent
  rw [withLock_bind] at hleft
  have hguarded := continues_act _ () hleft (by
    simp [Answers, Shared.free, conflicts, hshared])
  rw [connectGuarded, prog_bind_assoc] at hguarded
  have hagain := continues_lookup hguarded (by simp [effect, Shared.lock, hshared])
    (by simp [effect, Shared.lock, hshared])
  have habsent' : (effect i shared (.acquire (.init
      ((σ.shared.initGuards server).getD σ.shared.guards))) ()).entries server = none := hstill
  rw [habsent'] at hagain
  exact ⟨_, _, hagain⟩

end Retry

/-- In every run: one attempt at a time for a server; what was inserted stays,
and neither an attempt nor an insertion follows it; successful callers get the
entry in the map; only a successful attempt puts one there; only running tasks
hold locks; and a server without an entry can be tried again. -/
theorem single_flight (config : TomlConfig) (tools : Entry → List Tool)
    {es : List (Event registryWorld (registryService config))}
    {σ : System registryWorld (registryService config)} (h : Run (Shared.initial tools) Any es σ) :
    (∀ i j server, Attempting es i server → Attempting es j server → i = j) ∧
    (∀ later earlier i server entry u,
      es = later ++ .act i (.entriesInsert server entry) u::earlier →
      σ.shared.entries server = some entry ∧ ∀ j op ans, .act j op ans ∈ later →
        op ≠ .connectBegin server ∧ ∀ other, op ≠ .entriesInsert server other) ∧
    (∀ later earlier i server entry,
      es = later ++ .finish i (.connect server) (.entry (.ok entry))::earlier →
      ∃ hs : entry.server = server, σ.shared.entries server = some ⟨entry, hs⟩) ∧
    (∀ server entry, σ.shared.entries server = some entry → ∃ later i u earlier,
      es = later ++ .act i (.entriesInsert server entry) u::earlier ∧
        (trail registryProtocol i earlier).built = some entry.1) ∧
    (∀ i lock, i ∈ σ.shared.holders lock → σ.tasks i ≠ none) ∧
    ∀ i server, (∀ j, σ.tasks j = none) → σ.shared.entries server = none →
      ∃ guard shared, Continues es tools i (.connect server)
        (connectAbsent config server >>= fun outcome => do
          doing (.release (.init guard))
          return .entry (outcome.map Subtype.val)) shared := by
  refine ⟨fun i j server => one_attempt h, ?_, ?_, fun server entry => entry_was_inserted h,
    fun i lock => holder_runs h, fun i server hidle => can_retry h hidle⟩
  · rintro later earlier i server entry u rfl
    exact ⟨inserted_entry h, fun j op ans => no_more_after_insert h⟩
  · rintro later earlier i server entry rfl
    exact caller_gets_entry h

def probeConfig : TomlConfig where
  servers := List.toAList [⟨"s".toList, { command := some "c".toList }⟩]

def probeTools : Entry → List Tool := fun _ => [⟨"a".toList, none, []⟩]

/-- The choices of a run in which things go well for a task, `n` times. -/
def acts (config : TomlConfig) (i n : ℕ) : List (Choice (registryService config) Hint Outside) :=
  List.replicate n (.act i .well)

/-- Two calls race for the guard. The one that gets it is dropped in the middle
of its attempt, and the other one connects. -/
def race : List (Choice (registryService probeConfig) Hint Outside) :=
  .spawn 0 (.connect "s".toList) :: acts probeConfig 0 6 ++
    .spawn 1 (.connect "s".toList) :: acts probeConfig 1 6 ++ acts probeConfig 0 9 ++
    .drop 0 :: acts probeConfig 1 11 ++ .outside (.snapshot 1) :: acts probeConfig 1 7 ++ [.finish 1]

theorem race_runs : ∃ es σ, Run (W := registryWorld) (V := registryService probeConfig)
    (Shared.initial probeTools) (fun _ _ _ => true = true) es σ ∧
      (σ.shared.entries "s".toList).isSome = true :=
  playAll_reaches responder race (by decide)

theorem single_flight_race : ∃ (es : List (Event registryWorld (registryService probeConfig)))
    (σ : System registryWorld (registryService probeConfig)),
    Run (Shared.initial probeTools) (fun _ _ _ => True) es σ ∧
      (σ.shared.entries "s".toList).isSome = true ∧
      (∀ i j server, Attempting es i server → Attempting es j server → i = j) ∧
      ∀ i lock, i ∈ σ.shared.holders lock → σ.tasks i ≠ none := by
  obtain ⟨es, σ, hr, hs⟩ := race_runs
  have hrun := run_weaken (fun _ _ _ _ => trivial) hr
  have h := single_flight probeConfig probeTools hrun
  exact ⟨es, σ, hrun, hs, h.1, h.2.2.2.2.1⟩

end FaninMcp.SingleFlight
