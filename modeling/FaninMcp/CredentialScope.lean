import FaninMcp.PermissionLayer
import FaninMcp.PlaceholderExpansion
import FaninMcp.RequestRoutine

/-!
# Which credentials are read, and what becomes of them

A credential is looked up for a server that may be used and under a name its own
configuration puts in braces, in the store first and in the environment only
where the store has none. What is found is registered before anything else is
done, so whatever is written or spawned later can be told to leave it out.
-/

set_option autoImplicit false

namespace FaninMcp.CredentialScope
open Foundation.RustText Foundation.JsonText Foundation.AsyncPrograms FaninMcp.ConfigModel
  FaninMcp.ErrorModel FaninMcp.NamespaceAcl FaninMcp.RegistryModel FaninMcp.RegistryWorld
  FaninMcp.RegistryProtocol FaninMcp.RegistryWalk FaninMcp.MetaTools FaninMcp.MetaAcl
  FaninMcp.Redaction FaninMcp.PlaceholderExpansion FaninMcp.PermissionLayer
  FaninMcp.RequestRoutine

section Lookups
variable (config : TomlConfig) (active : ActiveNamespace)

/-- A value that is resolved for the server has the key in a placeholder. -/
def Mentions (server : ServerConfig) (key : Text) : Prop :=
  (∃ name raw, server.env.lookup name = some raw ∧ key ∈ names raw) ∨
    (∃ name raw, server.headers.lookup name = some raw ∧ key ∈ names raw) ∨
    server.transportKind = "stdio".toList ∧ ∃ raw, server.cwd = some raw ∧ key ∈ names raw

def InScope (server key : Text) : Prop :=
  active.isServerAllowed server = true ∧
    ∃ serverConfig, config.servers.lookup server = some serverConfig ∧ Mentions serverConfig key

/-- What a task did last: it found the store without a value, it found a value,
or something else. -/
inductive Lookup where
  | settled
  | missed (server key : Text)
  | found (value : Text)

def lookupAfter : Lookup → (op : Op) → Ans op → Lookup
  | _, .storeGet _ _, .ok (some value) => .found value
  | _, .storeGet server key, _ => .missed server key
  | _, .envVar _, some value => .found value
  | _, _, _ => .settled

def mayLookUp : Lookup → Op → Prop
  | .settled, .storeGet server key => InScope config active server key
  | .settled, .envVar _ => False
  | .settled, _ => True
  | .missed server key, op => op = .envVar key ∧ InScope config active server key
  | .found value, op => op = .registerSecret value

abbrev lookups : Protocol registryOps := ⟨Lookup, .settled, mayLookUp config active, lookupAfter⟩

def Sightless : Op → Prop
  | .storeGet _ _ | .envVar _ => False
  | _ => True

variable {config active}

theorem sightless_settled {op : Op} (h : Sightless op) : mayLookUp config active .settled op ∧
    ∀ ans, lookupAfter .settled op ans = .settled := by
  cases op <;> first | exact ⟨trivial, fun _ => rfl⟩ | exact h.elim

theorem settled_of_waiting {φ : Lookup} {op : Op} (hw : awaits op = true)
    (hmay : mayLookUp config active φ op) : φ = .settled := by
  cases φ with
  | settled => rfl
  | missed server key =>
    obtain ⟨rfl, _⟩ := hmay
    cases hw
  | found value =>
    obtain rfl := hmay
    cases hw

theorem storeGet_scope {φ : Lookup} {server key : Text}
    (h : mayLookUp config active φ (.storeGet server key)) : InScope config active server key := by
  cases φ with
  | settled => exact h
  | missed s k => cases h.1
  | found value => cases h

theorem envVar_scope {φ : Lookup} {key : Text} (h : mayLookUp config active φ (.envVar key)) :
    ∃ server, φ = .missed server key ∧ InScope config active server key := by
  cases φ with
  | settled => exact h.elim
  | missed server k =>
    obtain ⟨hkey, hscope⟩ := h
    obtain rfl := Op.envVar.inj hkey
    exact ⟨server, rfl, hscope⟩
  | found value => cases h

theorem lookups_rest : Rests (lookups config active) .settled := by
  refine ⟨fun op h => sightless_settled ?_, fun φ op hw hmay => ?_, fun φ op hw hmay => ?_⟩
  · cases op <;> first | exact trivial | exact h.elim
  · obtain rfl := settled_of_waiting hw hmay
    exact ⟨trivial, fun _ => rfl⟩
  · obtain rfl := settled_of_waiting hw hmay
    exact ⟨trivial, fun _ => rfl⟩

theorem settles_sightless {α : Type} {R : α → Prop} {p : RegistryProg α} (h : p.All Sightless R) :
    Settles (lookups config active) .settled p :=
  obeys_quiet (fun _ hq => sightless_settled hq) (fun _ _ => rfl) h

end Lookups

section Programs
variable {config : TomlConfig} {active : ActiveNamespace} {server : Text}
  {serverConfig : ServerConfig}

theorem lookUp_scoped {key : Text} (h : InScope config active server key) :
    Obeys (lookups config active) (fun out φ => φ = out.elim .settled .found) (lookUp server key)
      .settled := by
  have henv : Obeys (lookups config active) (fun out φ => φ = out.elim .settled .found)
      (doing (.envVar key)) (.missed server key) := by
    refine ⟨⟨rfl, h⟩, fun value => ?_⟩
    cases value <;> rfl
  refine ⟨h, fun preferred => ?_⟩
  rcases preferred with e | (_ | value)
  · exact henv
  · exact henv
  · rfl

theorem expand_scoped (ps : List Piece) (result : Text)
    (h : ∀ key ∈ ps.filterMap Piece.name?, InScope config active server key) :
    Settles (lookups config active) .settled (expand server result ps) := by
  induction ps generalizing result with
  | nil => exact settles_done _
  | cons piece rest ih =>
    cases piece with
    | verbatim text => exact ih _ h
    | placeholder key =>
      have hkey : InScope config active server key := h key (by simp [Piece.name?])
      have hrest : ∀ key ∈ rest.filterMap Piece.name?, InScope config active server key :=
        fun key hk => h key (by simp [Piece.name?, hk])
      refine obeys_bind (obeys_mono (fun out φ hφ => ?_) (lookUp_scoped hkey))
      subst hφ
      cases out with
      | none => exact settles_done _
      | some value => exact ⟨rfl, fun _ => ih _ hrest⟩

theorem resolveEnvValue_scoped {raw : Text} (h : ∀ key ∈ names raw, InScope config active server key) :
    Settles (lookups config active) .settled (resolveEnvValue server raw) := by
  rw [resolveEnvValue_expand]
  exact expand_scoped _ _ h

theorem resolveValues_scoped (register : Bool) (values : List (Σ _ : Text, Text))
    (resolved : TextMap Text)
    (h : ∀ entry ∈ values, ∀ key ∈ names entry.2, InScope config active server key) :
    Settles (lookups config active) .settled (resolveValues server register values resolved) := by
  induction values generalizing resolved with
  | nil => exact settles_done _
  | cons entry rest ih =>
    obtain ⟨hentry, hrest⟩ := List.forall_mem_cons.mp h
    refine settles_bind (resolveEnvValue_scoped hentry) fun out => ?_
    cases out with
    | error e => exact settles_done _
    | ok value =>
      cases register with
      | true =>
        have hsettled := @sightless_settled config active (.registerSecret value) trivial
        exact settles_act hsettled fun _ => ih _ hrest
      | false => exact ih _ hrest

theorem resolveCwd_scoped (h : serverConfig.transportKind = "stdio".toList →
      ∀ raw, serverConfig.cwd = some raw → ∀ key ∈ names raw, InScope config active server key) :
    Settles (lookups config active) .settled (resolveCwd server serverConfig) := by
  rw [resolveCwd]
  split_ifs with hstdio
  · cases hcwd : serverConfig.cwd with
    | none => exact settles_done _
    | some raw =>
      refine settles_bind (resolveEnvValue_scoped (h hstdio raw hcwd)) fun out => ?_
      cases out with
      | error e => exact settles_done _
      | ok resolved =>
        dsimp only
        split_ifs <;> exact settles_done _
  · exact settles_done _

theorem connect_sightless (env headers : TextMap Text) :
    (connect server serverConfig env headers).All Sightless (Fails fun _ => True) := by
  refine all_mono (fun op hop => ?_) (fun _ h => h)
    (connect_starts (fun _ => trivial) serverConfig env headers)
  cases op <;> first | exact trivial | exact hop.elim

theorem attempt_sightless (env headers : TextMap Text) :
    (attempt server serverConfig env headers).All Sightless (fun _ => True) := by
  rw [attempt_eq]
  exact ⟨trivial, fun _ => all_bind (all_mono (fun _ hq => hq)
    (fun _ _ => ⟨trivial, fun _ => trivial⟩) (timed_all trivial (connect_sightless env headers)))⟩

theorem connectAbsent_scoped (hallowed : active.isServerAllowed server = true) :
    Settles (lookups config active) .settled (connectAbsent config server) := by
  have hscope : ∀ {serverConfig : ServerConfig} {key : Text},
      config.servers.lookup server = some serverConfig → Mentions serverConfig key →
        InScope config active server key :=
    fun hserver hkey => ⟨hallowed, _, hserver, hkey⟩
  refine settles_comes.mpr (connectAbsent_parts (fun _ => rfl) (fun serverConfig hserver => ?_)
    (fun serverConfig env headers _ =>
      settles_comes.mp (settles_sightless (attempt_sightless env headers))) ?_)
  · refine ⟨settles_comes.mp (resolveValues_scoped false _ _ fun entry he key hkey => ?_),
      settles_comes.mp (resolveValues_scoped true _ _ fun entry he key hkey => ?_),
      settles_comes.mp (resolveCwd_scoped fun hstdio raw hcwd key hkey => ?_)⟩
    · exact hscope hserver (Or.inl ⟨entry.1, entry.2, AList.mem_lookup_iff.mpr he, hkey⟩)
    · exact hscope hserver (Or.inr (Or.inl ⟨entry.1, entry.2, AList.mem_lookup_iff.mpr he, hkey⟩))
    · exact hscope hserver (Or.inr (Or.inr ⟨hstdio, raw, hcwd, hkey⟩))
  · rintro entry _ rfl
    have hinsert : (withLock .entriesWrite (doing (.entriesInsert server entry))).All Sightless
        (fun _ => True) := withLock_all trivial trivial ⟨trivial, fun _ => trivial⟩
    exact settles_sightless hinsert

theorem dispatch_scoped (request : Request) : Settles (lookups config active) .settled
    (dispatchTool (.withRegistry config active) request) :=
  settles_dispatch lookups_rest (fun _ hallowed => connectAbsent_scoped hallowed) request

end Programs

section Runs
variable {config : TomlConfig} {active : ActiveNamespace}

def secretsAfter (S : SecretSet) {V : Service registryOps} :
    List (Event registryWorld V) → SecretSet
  | [] => S
  | .act _ (.registerSecret value) _::es => (secretsAfter S es).registerSecret value
  | _::es => secretsAfter S es

def valueRead : (op : Op) → Ans op → Option Text
  | .storeGet _ _, .ok found => found
  | .envVar _, found => found
  | _, _ => none

theorem after_valueRead {op : Op} {ans : Ans op} {value : Text} (h : valueRead op ans = some value)
    (φ : Lookup) : lookupAfter φ op ans = .found value := by
  cases op <;> try cases h
  case storeGet server key =>
    rcases ans with e | found
    · cases h
    · obtain rfl := h
      rfl
  case envVar key => rfl

theorem secretsAfter_mono {S : SecretSet} {V : Service registryOps} {v : Text}
    (e : Event registryWorld V) {es : List (Event registryWorld V)}
    (h : v ∈ (secretsAfter S es).values) : v ∈ (secretsAfter S (e::es)).values := by
  cases e with
  | act i op ans =>
    cases op <;> try exact h
    exact mem_registerSecret.mpr (Or.inl h)
  | spawn _ _ | finish _ _ _ | drop _ | outside _ => exact h

variable {start : Shared}
  {K : List (MetaEvent (.withRegistry config active)) → Shared →
    MetaEvent (.withRegistry config active) → Prop}
  {es : List (MetaEvent (.withRegistry config active))}
  {σ σ' : MetaSystem (.withRegistry config active)}
  {e : MetaEvent (.withRegistry config active)}

theorem run_scoped (h : Run start K es σ) {i : ℕ} {request : Request} {p : RegistryProg Reply}
    (hi : σ.tasks i = some (request, p)) :
    Obeys (lookups config active) (fun _ φ => φ = .settled) p
      (trail (lookups config active) i es) :=
  run_obeys (P := lookups config active) dispatch_scoped h hi

/-- Nothing comes between a value that was found and its registration: the task
neither ends nor waits there. -/
theorem registered_next (h : Run start K es σ) (hs : Step σ e σ') {i : ℕ} {value : Text}
    (hfound : trail (lookups config active) i es = .found value) (htask : e.task = some i) :
    e = .act i (.registerSecret value) () := by
  cases hs with
  | spawn request hi =>
    obtain rfl := Option.some.inj htask
    rw [trail_idle h hi] at hfound
    cases hfound
  | @act j request op next ans shared hi hp =>
    obtain rfl := Option.some.inj htask
    have hmay := (run_scoped h hi).1
    rw [hfound] at hmay
    obtain rfl := hmay
    rfl
  | finish hi =>
    obtain rfl := Option.some.inj htask
    have hsettled := run_scoped h hi
    rw [hfound] at hsettled
    cases hsettled
  | drop hi hw =>
    obtain rfl := Option.some.inj htask
    have hsettled := settled_of_waiting hw (run_scoped h hi).1
    rw [hfound] at hsettled
    cases hsettled
  | outside _ => cases htask

theorem read_registered (S : SecretSet) (h : Run start K es σ) {i : ℕ} {op : Op} {ans : Ans op}
    {value : Text} (hin : Event.act i op ans ∈ es) (hread : valueRead op ans = some value)
    (hne : value ≠ []) :
    value ∈ (secretsAfter S es).values ∨ trail (lookups config active) i es = .found value := by
  induction h with
  | start => cases hin
  | @step es σ σ' e hr _ hs ih =>
    rcases List.mem_cons.mp hin with rfl | hold
    · right
      simp [trail, after_valueRead hread]
    rcases ih hold with hknown | hfound
    · exact Or.inl (secretsAfter_mono e hknown)
    by_cases htask : e.task = some i
    · left
      rw [registered_next hr hs hfound htask]
      exact mem_registerSecret.mpr (Or.inr ⟨hne, rfl⟩)
    · right
      rwa [trail_other _ es htask]

def JustRead (i : ℕ) (value : Text) (es : List (MetaEvent (.withRegistry config active))) : Prop :=
  ∃ between op ans earlier, es = between ++ .act i op ans::earlier ∧
    (∀ e ∈ between, e.task ≠ some i) ∧ valueRead op ans = some value

theorem justRead_found {i : ℕ} {value : Text} (h : JustRead i value es) :
    trail (lookups config active) i es = .found value := by
  obtain ⟨between, op, ans, earlier, rfl, hothers, hread⟩ := h
  induction between with
  | nil => simp [trail, after_valueRead hread]
  | cons e between ih =>
    obtain ⟨he, hothers⟩ := List.forall_mem_cons.mp hothers
    rw [List.cons_append, trail_other _ _ he]
    exact ih hothers

/-- In every interleaving: the store is asked for keys in scope only, the
environment only for a key the store has just had no value for, and a task's next
event after it has read a value registers it, so that whatever else it does, all
it has read is among the secrets. -/
theorem credentials_in_scope (config : TomlConfig) (active : ActiveNamespace) (start : Shared)
    (K : List (MetaEvent (.withRegistry config active)) → Shared →
      MetaEvent (.withRegistry config active) → Prop)
    (S : SecretSet) {es : List (MetaEvent (.withRegistry config active))}
    {σ σ' : MetaSystem (.withRegistry config active)}
    {e : MetaEvent (.withRegistry config active)} (h : Run start K es σ) (hs : Step σ e σ')
    (i : ℕ) :
    (∀ server key found, e = .act i (.storeGet server key) found →
      InScope config active server key) ∧
    (∀ key found, e = .act i (.envVar key) found →
      ∃ server, trail (lookups config active) i es = .missed server key ∧
        InScope config active server key) ∧
    (∀ value, JustRead i value es → e.task = some i → e = .act i (.registerSecret value) ()) ∧
    ∀ op ans value, .act i op ans ∈ es → valueRead op ans = some value → value ≠ [] →
      e.task = some i → e = .act i (.registerSecret value) () ∨
        value ∈ (secretsAfter S es).values := by
  have hmay : ∀ op ans, e = .act i op ans →
      mayLookUp config active (trail (lookups config active) i es) op := by
    rintro op ans rfl
    exact may_of_step (P := lookups config active) dispatch_scoped h hs
  refine ⟨fun server key found he => storeGet_scope (hmay _ _ he),
    fun key found he => envVar_scope (hmay _ _ he),
    fun value hjust htask => registered_next h hs (justRead_found hjust) htask,
    fun op ans value hin hread hne htask => ?_⟩
  rcases read_registered S h hin hread hne with hknown | hfound
  · exact Or.inr hknown
  · exact Or.inl (registered_next h hs hfound htask)

end Runs

section Token

def tokenConfig : TomlConfig where
  servers := List.toAList [⟨"s".toList,
    { command := some "c".toList, env := List.toAList [⟨"TOKEN".toList, "$\x7bKEY\x7d".toList⟩] }⟩]

abbrev tokenGate : Aggregator := .withRegistry tokenConfig gateActive

def tokenRead : MetaEvent tokenGate → Bool
  | .act i op ans => i = 0 && valueRead op ans = some "KEY".toList
  | _ => false

def connecting (σ : MetaSystem tokenGate) : Bool :=
  match σ.tasks 0 with
  | some (_, .act (Op.connectBegin _) _) => true
  | _ => false

theorem connecting_step {σ : MetaSystem tokenGate} (h : connecting σ = true) :
    ∃ server σ', Step σ (.act 0 (Op.connectBegin server) ()) σ' := by
  rw [connecting] at h
  split at h
  · rename_i server _ hi
    exact ⟨server, _, Step.act hi ⟨trivial, rfl⟩⟩
  · cases h

theorem token_runs : ∃ es σ, Run (W := registryWorld) (V := metaService tokenGate)
    (Shared.initial SingleFlight.probeTools) (fun _ _ _ => true = true) es σ ∧
      (es.any tokenRead && connecting σ) = true :=
  playAll_reaches responder (.spawn 0 listRequest :: List.replicate 13 (.act 0 .well)) (by decide)

theorem credentials_in_scope_token : ∃ (es : List (MetaEvent tokenGate)) (σ : MetaSystem tokenGate),
    Run (W := registryWorld) (V := metaService tokenGate)
      (Shared.initial SingleFlight.probeTools) (fun _ _ _ => True) es σ ∧
        connecting σ = true ∧ "KEY".toList ∈ (secretsAfter ⟨∅, by simp⟩ es).values := by
  obtain ⟨es, σ, hr, hgoal⟩ := token_runs
  obtain ⟨hread, hconnecting⟩ := Bool.and_eq_true_iff.mp hgoal
  obtain ⟨e, hin, he⟩ := List.any_eq_true.mp hread
  obtain ⟨server, σ', hs⟩ := connecting_step hconnecting
  cases e with
  | act i op ans =>
    simp only [tokenRead, Bool.and_eq_true, decide_eq_true_eq] at he
    obtain ⟨rfl, hvalue⟩ := he
    have hrun := run_weaken (fun _ _ _ _ => trivial) hr
    have h := credentials_in_scope tokenConfig gateActive (Shared.initial SingleFlight.probeTools)
      (fun _ _ _ => True) ⟨∅, by simp⟩ hrun hs 0
    rcases h.2.2.2 op ans _ hin hvalue (by decide) rfl with hsame | hknown
    · cases hsame
    · exact ⟨es, σ, hrun, hconnecting, hknown⟩
  | spawn _ _ | finish _ _ _ | drop _ | outside _ => cases he

end Token

end FaninMcp.CredentialScope
