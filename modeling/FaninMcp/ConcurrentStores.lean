import FaninMcp.ConcurrentNames

/-!
# Any number of processes over one keyring

Every `cred` command is a process of its own, and nothing keeps them apart. What
they store, remove and list they do step by step on one keyring, in any order;
any of them may be killed, and steps may fail. Still a command only ever touches
its own credential: no value comes from anywhere but a command for that very
server and key, a name that nobody removes stays listed, and what a reader is told
was so while it read.
-/

set_option autoImplicit false

namespace FaninMcp.ConcurrentStores
open Foundation.RustText Foundation.AsyncPrograms FaninMcp.KeyringModel
  FaninMcp.KeyringRefinement FaninMcp.ConcurrentNames

section Processes

/-- What the store is asked for, by the commands and by the resolver. -/
inductive StoreCall where
  | change (command : Command)
  | get (server key : Text)
  | listNames (server : Text)

inductive StoreReply where
  | changed (outcome : Except Text Unit)
  | value (outcome : Except Text (Option Text))
  | names (outcome : Except Text (List Text))

def StoreCall.server : StoreCall → Text
  | .change command => command.server
  | .get server _ | .listNames server => server

def serveStore : StoreCall → KeyringProg StoreReply
  | .change command => do
    let outcome ← command.program
    return .changed outcome
  | .get server key => do
    let outcome ← KeyringModel.get server key
    return .value outcome
  | .listNames server => do
    let outcome ← KeyringModel.listNames server
    return .names outcome

abbrev storeService : Service keyringOps := ⟨StoreCall, StoreReply, serveStore⟩

def readsNames : KeyringOp → Bool
  | .entry _ user | .getPassword _ user => user = indexUser
  | _ => false

/-- A keyring any step of which may fail, and then has no effect, but for the
steps that look the names up. -/
def Working : Semantics keyringOps Vault := fun vault op ans vault' =>
  Faithful vault op ans vault' ∨ Fails op ans ∧ vault' = vault ∧ readsNames op = false

abbrev keyringWorld : World keyringOps where
  State := Vault
  Env := Empty
  Performs _ := Working
  outside _ e := e.elim
  release _ vault := vault

abbrev StoreEvent := Event keyringWorld storeService

abbrev Processes := System keyringWorld storeService

/-- The keys of a call are not the one the names are kept under. -/
def StoreCall.Ordinary : StoreCall → Prop
  | .change command => command.key ≠ indexUser
  | .get _ key => key ≠ indexUser
  | .listNames _ => True

def Ordinary (_ : List StoreEvent) (_ : Vault) : StoreEvent → Prop
  | .spawn _ call => call.Ordinary
  | _ => True

end Processes

section Histories
variable (start : Vault) (es : List StoreEvent) (server : Text)

def Performed (command : Command) (op : KeyringOp) (ans : KeyringAns op) : Prop :=
  ∃ later i earlier, es = later ++ .act i op ans::earlier ∧
    requestOf i earlier = some (StoreCall.change command)

def Saved (command : Command) : Prop :=
  ∃ text, Performed es command (.setPassword (service command.server) indexUser text) (.ok ())

/-- A value is what was there in the beginning, or a command for this credential
has left it. -/
inductive Origin (key : Text) : Option Text → Prop
  | initial : Origin key (stored start server key)
  | set (value : Text) :
      Performed es (.set server key value) (.setPassword (service server) key value) (.ok ()) →
      Origin key (some value)
  | removed :
      Performed es (.delete server key) (.deleteCredential (service server) key) (.ok ()) →
      Origin key none

/-- What nobody has removed is among the names, and all others were added. -/
structure Within (names : Finset Text) : Prop where
  kept : ∀ name ∈ listed start server, ¬ Saved es (.delete server name) → name ∈ names
  known : ∀ name ∈ names, name ∈ listed start server ∨ ∃ value, Saved es (.set server name value)

def Looked {α : Type} (i : ℕ) (call : StoreCall) (what : Vault → α) (seen : α) : Prop :=
  ∃ between before σ, es = between ++ before ∧ Run start Ordinary before σ ∧
    requestOf i before = some call ∧
    (∀ e ∈ between, e.task = some i → ∃ op ans, e = .act i op ans) ∧ what σ.shared = seen

end Histories

section Programs

/-- The names a process has looked up, and the value it has read. -/
structure Seen where
  names : Option (Finset Text) := none
  value : Option (Option Text) := none

def valueOf : Except KeyringError Text → Option (Option Text)
  | .ok text => some (some text)
  | .error .noEntry => some none
  | .error (.other _) => none

/-- An entry of names that cannot be opened is read as one without names. -/
def seenAfter (φ : Seen) : (op : KeyringOp) → KeyringAns op → Seen
  | .entry _ user, .error _ => if user = indexUser then { φ with names := some ∅ } else φ
  | .getPassword _ user, ans =>
    if user = indexUser then { φ with names := some (namesRead ans) }
    else { φ with value := (valueOf ans).or φ.value }
  | _, _ => φ

def update : Command → Finset Text → Finset Text
  | .set _ key _, names => insert key names
  | .delete _ key, names => names.erase key

/-- What a process may do to the entries: its own command's change, and the names
it has looked up with that change made to them. -/
def changes (call : StoreCall) (φ : Seen) : KeyringOp → Prop
  | .setPassword s user text =>
    if user = indexUser then ∃ command names, call = .change command ∧
      s = service command.server ∧ φ.names = some names ∧ namesOf text = update command names
    else ∃ server, call = .change (.set server user text) ∧ s = service server
  | .deleteCredential s user => user ≠ indexUser ∧
      ∃ server, call = .change (.delete server user) ∧ s = service server
  | .getPassword s user => s = service call.server ∧
      (user ≠ indexUser → call = .get call.server user)
  | _ => True

def seeing : Protocol keyringOps := ⟨Seen, {}, fun _ _ => True, seenAfter⟩

def storing (call : StoreCall) : Protocol keyringOps := { seeing with may := changes call }

def Told : StoreReply → Seen → Prop
  | .names (.ok names), φ => ∃ seen, φ.names = some seen ∧ names = seen.sort (· ≤ ·)
  | .value (.ok value), φ => φ.value = some value
  | _, _ => True

variable {call : StoreCall} {φ : Seen}

theorem obeys_loadIndex {server : Text} (hserver : server = call.server) :
    Obeys (storing call) (fun names ψ => ψ = { φ with names := some names }) (loadIndex server)
      φ := by
  refine ⟨trivial, fun opened => ?_⟩
  cases opened with
  | error e =>
    change seenAfter φ (.entry (service server) indexUser) (.error e) = _
    simp [seenAfter]
  | ok _ =>
    refine ⟨⟨congrArg service hserver, fun h => absurd rfl h⟩, fun ans => ?_⟩
    have hseen : seenAfter φ (.getPassword (service server) indexUser) ans =
        { φ with names := some (namesRead ans) } := by simp [seenAfter]
    change Obeys (storing call) _ _ (seenAfter φ (.getPassword (service server) indexUser) ans)
    rw [hseen]
    cases ans with
    | error e => exact rfl
    | ok text =>
      dsimp only [namesRead, namesOf, Prog.bind]
      cases decodeNames text <;> exact rfl

theorem obeys_saveIndex {command : Command} {names : Finset Text} (hcall : call = .change command)
    (hnames : φ.names = some names) :
    Obeys (storing call) (fun _ _ => True) (saveIndex command.server (update command names))
      φ := by
  refine ⟨trivial, fun opened => ?_⟩
  cases opened with
  | error e => trivial
  | ok _ =>
    refine ⟨trivial, fun order => ?_⟩
    have hwrites : changes call φ
        (.setPassword (service command.server) indexUser (encodeNames order.1)) := by
      rw [changes, if_pos rfl]
      refine ⟨command, names, hcall, rfl, hnames, ?_⟩
      rw [namesOf, decode_encode]
      exact order.2.1
    exact ⟨hwrites, fun saved => by cases saved <;> trivial⟩

theorem obeys_set {server key value : Text} (hkey : key ≠ indexUser) :
    Obeys (storing (.change (.set server key value))) (fun _ _ => True)
      (KeyringModel.set server key value) φ := by
  refine ⟨trivial, fun opened => ?_⟩
  cases opened with
  | error e => trivial
  | ok _ =>
    have hwrites : changes (.change (.set server key value)) φ
        (.setPassword (service server) key value) := by
      rw [changes, if_neg hkey]
      exact ⟨server, rfl, rfl⟩
    refine ⟨hwrites, fun stored => ?_⟩
    cases stored with
    | error e => trivial
    | ok _ =>
      refine obeys_bind (p := loadIndex server) (obeys_mono (fun names ψ hψ => ?_)
        (obeys_loadIndex rfl))
      exact @obeys_saveIndex _ ψ (.set server key value) names rfl (by rw [hψ])

theorem obeys_delete {server key : Text} (hkey : key ≠ indexUser) :
    Obeys (storing (.change (.delete server key))) (fun _ _ => True)
      (KeyringModel.delete server key) φ := by
  have hdrop : Obeys (storing (.change (.delete server key))) (fun _ _ => True)
      (dropEntry server key) φ := by
    refine ⟨trivial, fun opened => ?_⟩
    cases opened with
    | error e => trivial
    | ok _ => exact ⟨⟨hkey, server, rfl, rfl⟩, fun _ => trivial⟩
  refine obeys_bind (obeys_mono (fun _ ψ _ => ?_) hdrop)
  refine obeys_bind (obeys_mono (fun names χ hχ => ?_) (obeys_loadIndex rfl))
  exact obeys_bind (obeys_mono (fun _ _ _ => trivial)
    (@obeys_saveIndex _ χ (.delete server key) names rfl (by rw [hχ])))

theorem obeys_get {server key : Text} (hkey : key ≠ indexUser) :
    Obeys (storing (.get server key)) (fun out ψ => Told (.value out) ψ)
      (KeyringModel.get server key) φ := by
  refine ⟨trivial, fun opened => ?_⟩
  cases opened with
  | error e => trivial
  | ok _ =>
    refine ⟨⟨rfl, fun _ => rfl⟩, fun ans => ?_⟩
    have hseen : seenAfter φ (.getPassword (service server) key) ans =
        { φ with value := (valueOf ans).or φ.value } := by simp [seenAfter, hkey]
    change Obeys (storing _) _ _ (seenAfter φ (.getPassword (service server) key) ans)
    rw [hseen]
    rcases ans with (_ | message) | value
    · exact rfl
    · trivial
    · exact rfl

theorem obeys_listNames (server : Text) :
    Obeys (storing (.listNames server)) (fun out ψ => Told (.names out) ψ)
      (KeyringModel.listNames server) φ := by
  refine obeys_bind (obeys_mono (fun names ψ hψ => ?_) (obeys_loadIndex rfl))
  exact ⟨names, by rw [hψ], rfl⟩

theorem obeys_serveStore (hcall : call.Ordinary) :
    Obeys (storing call) Told (serveStore call) {} := by
  cases call with
  | change command =>
    refine obeys_bind (obeys_mono (fun _ _ _ => trivial) (?_ : Obeys _ (fun _ _ => True) _ _))
    cases command with
    | set server key value => exact obeys_set hcall
    | delete server key => exact obeys_delete hcall
  | get server key => exact obeys_bind (obeys_mono (fun _ _ h => h) (obeys_get hcall))
  | listNames server => exact obeys_bind (obeys_mono (fun _ _ h => h) (obeys_listNames server))

end Programs

section Changes
variable {start vault vault' : Vault} {es : List StoreEvent} {e : StoreEvent} {call : StoreCall}
  {φ : Seen} {op : KeyringOp} {ans : KeyringAns op} {i : ℕ} {server key : Text}
  {names : Finset Text} {command : Command}

theorem performed_now (h : requestOf i es = some (.change command)) :
    Performed (.act i op ans::es) command op ans := ⟨[], i, es, rfl, h⟩

theorem performed_append (between : List StoreEvent) (h : Performed es command op ans) :
    Performed (between ++ es) command op ans := by
  obtain ⟨later, i, earlier, rfl, hrequest⟩ := h
  exact ⟨between ++ later, i, earlier, (List.append_assoc _ _ _).symm, hrequest⟩

theorem saved_append (between : List StoreEvent) (h : Saved es command) :
    Saved (between ++ es) command := by
  obtain ⟨text, hperformed⟩ := h
  exact ⟨text, performed_append between hperformed⟩

theorem origin_append (between : List StoreEvent) {value : Option Text}
    (h : Origin start es server key value) : Origin start (between ++ es) server key value := by
  cases h with
  | initial => exact .initial
  | set value hset => exact .set value (performed_append between hset)
  | removed hremoved => exact .removed (performed_append between hremoved)

theorem within_append (between : List StoreEvent) (h : Within start es server names) :
    Within start (between ++ es) server names := by
  constructor
  · exact fun name hname hstays => h.kept name hname fun hsaved => hstays (saved_append between hsaved)
  · intro name hname
    refine (h.known name hname).imp_right fun hadded => ?_
    obtain ⟨value, hsaved⟩ := hadded
    exact ⟨value, saved_append between hsaved⟩

theorem within_update (hsaved : Saved es command) (h : Within start es command.server names) :
    Within start es command.server (update command names) := by
  cases command with
  | set server key value =>
    constructor
    · intro name hname hstays
      exact Finset.mem_insert_of_mem (h.kept name hname hstays)
    · intro name hname
      rcases Finset.mem_insert.mp hname with rfl | hold
      · exact Or.inr ⟨value, hsaved⟩
      · exact h.known name hold
  | delete server key =>
    constructor
    · intro name hname hstays
      refine Finset.mem_erase.mpr ⟨?_, h.kept name hname hstays⟩
      rintro rfl
      exact hstays hsaved
    · intro name hname
      exact h.known name (Finset.mem_of_mem_erase hname)

theorem listed_written (vault : Vault) (server text : Text) :
    listed (put vault (service server) indexUser (some text)) server = namesOf text := by
  rw [listed, put_same]
  rfl

theorem listed_elsewhere {user : Text} (hu : user ≠ indexUser) (s : Text)
    (password : Option Text) : listed (put vault (service server) user password) s =
      listed vault s := by
  by_cases hs : s = server
  · subst hs
    exact listed_user vault s hu.symm password
  · exact listed_service vault hs user password

theorem stored_elsewhere {user : Text} {s : Text} (h : s ≠ server ∨ key ≠ user)
    (password : Option Text) :
    stored (put vault (service server) user password) s key = stored vault s key := by
  rw [stored, stored]
  by_cases hs : s = server
  · subst hs
    exact put_user vault _ (h.resolve_left (by simp)) password
  · exact put_service vault (fun heq => hs (service_injective heq)) _ _ password

/-- What an operation of a call does to the keyring. -/
inductive Changed (call : StoreCall) (φ : Seen) (vault : Vault) :
    (op : KeyringOp) → KeyringAns op → Vault → Prop
  | same {op : KeyringOp} {ans : KeyringAns op} : Changed call φ vault op ans vault
  | saved {command : Command} {names : Finset Text} {text : Text} :
      call = .change command → φ.names = some names → namesOf text = update command names →
      Changed call φ vault (.setPassword (service command.server) indexUser text) (.ok ())
        (put vault (service command.server) indexUser (some text))
  | set {server key value : Text} : key ≠ indexUser → call = .change (.set server key value) →
      Changed call φ vault (.setPassword (service server) key value) (.ok ())
        (put vault (service server) key (some value))
  | removed {server key : Text} {ans : Except KeyringError Unit} : key ≠ indexUser →
      call = .change (.delete server key) → ans = .ok () ∨ vault (service server) key = none →
      Changed call φ vault (.deleteCredential (service server) key) ans
        (put vault (service server) key none)

theorem changed_step (hmay : changes call φ op) (hp : Working vault op ans vault') :
    Changed call φ vault op ans vault' := by
  rcases hp with hp | ⟨_, rfl, _⟩
  · cases op with
    | entry _ _ | getPassword _ _ => exact hp.2 ▸ .same
    | iterate _ => exact hp ▸ .same
    | setPassword s user text =>
      obtain ⟨rfl, rfl⟩ := hp
      rw [changes] at hmay
      split_ifs at hmay with hu
      · obtain ⟨command, names, hcall, rfl, hseen, htext⟩ := hmay
        exact hu ▸ .saved hcall hseen htext
      · obtain ⟨server, hcall, rfl⟩ := hmay
        exact .set hu hcall
    | deleteCredential s user =>
      obtain ⟨hu, server, hcall, rfl⟩ := hmay
      obtain ⟨rfl, rfl⟩ := hp
      refine .removed hu hcall ?_
      cases hthere : vault (service server) user with
      | none => exact Or.inr rfl
      | some password => exact Or.inl rfl
  · exact .same

theorem within_step (hnames : ∀ s, Within start es s (listed vault s))
    (hrequest : requestOf i es = some call)
    (hloaded : ∀ names, φ.names = some names → Within start es call.server names)
    (hmay : changes call φ op) (hp : Working vault op ans vault') (s : Text) :
    Within start (.act i op ans::es) s (listed vault' s) := by
  have hsame := within_append [.act i op ans] (hnames s)
  cases changed_step hmay hp with
  | same => exact hsame
  | @saved command names text hcall hseen htext =>
    subst hcall
    by_cases hs : s = command.server
    · subst hs
      rw [listed_written, htext]
      exact within_update ⟨text, performed_now hrequest⟩ (within_append [_] (hloaded names hseen))
    · rw [listed_service _ hs]
      exact hsame
  | set hu _ | removed hu _ _ =>
    rw [listed_elsewhere hu]
    exact hsame

theorem origin_step (hkey : key ≠ indexUser)
    (hvalue : Origin start es server key (stored vault server key))
    (hrequest : requestOf i es = some call) (hmay : changes call φ op)
    (hp : Working vault op ans vault') :
    Origin start (.act i op ans::es) server key (stored vault' server key) := by
  have hsame := origin_append [.act i op ans] hvalue
  cases changed_step hmay hp with
  | same => exact hsame
  | saved _ _ _ =>
    rw [stored_elsewhere (Or.inr hkey)]
    exact hsame
  | @set s user value _ hcall =>
    by_cases helse : server ≠ s ∨ key ≠ user
    · rw [stored_elsewhere helse]
      exact hsame
    · obtain ⟨rfl, rfl⟩ : server = s ∧ key = user := by simpa using helse
      rw [stored, put_same]
      exact .set value (performed_now (hcall ▸ hrequest))
  | @removed s user _ _ hcall hdone =>
    by_cases helse : server ≠ s ∨ key ≠ user
    · rw [stored_elsewhere helse]
      exact hsame
    · obtain ⟨rfl, rfl⟩ : server = s ∧ key = user := by simpa using helse
      rw [stored, put_same]
      rcases hdone with rfl | hnone
      · exact .removed (performed_now (hcall ▸ hrequest))
      · rw [stored, hnone] at hvalue
        exact origin_append [_] hvalue

theorem names_seen (hmay : changes call φ op) (hp : Working vault op ans vault')
    (h : (seenAfter φ op ans).names = some names) :
    φ.names = some names ∨ names = listed vault call.server := by
  cases op with
  | setPassword _ _ _ | deleteCredential _ _ | iterate _ => exact Or.inl h
  | entry s user =>
    cases ans with
    | ok _ => exact Or.inl h
    | error e =>
      rcases hp with ⟨hans, _⟩ | ⟨_, _, hreads⟩
      · cases hans
      · have hu : user ≠ indexUser := by simpa [readsNames] using hreads
        rw [seenAfter, if_neg hu] at h
        exact Or.inl h
  | getPassword s user =>
    rw [seenAfter] at h
    split_ifs at h with hu
    · rcases hp with ⟨rfl, _⟩ | ⟨_, _, hreads⟩
      · refine Or.inr (Option.some.inj h.symm |>.trans ?_)
        rw [hmay.1, hu, namesRead_true]
      · simp [readsNames, hu] at hreads
    · exact Or.inl h

theorem value_seen {value : Option Text} (hmay : changes (.get server key) φ op)
    (hp : Working vault op ans vault') (h : (seenAfter φ op ans).value = some value) :
    φ.value = some value ∨ value = stored vault server key := by
  cases op with
  | setPassword _ _ _ | deleteCredential _ _ | iterate _ => exact Or.inl h
  | entry s user =>
    cases ans with
    | ok _ => exact Or.inl h
    | error e =>
      rw [seenAfter] at h
      split_ifs at h <;> exact Or.inl h
  | getPassword s user =>
    rw [seenAfter] at h
    split_ifs at h with hu
    · exact Or.inl h
    · obtain ⟨rfl, hget⟩ := hmay
      cases hget hu
      rcases hp with ⟨rfl, _⟩ | ⟨hfails, _, _⟩
      · change (valueOf ((vault (service server) key).elim (.error .noEntry) .ok)).or φ.value =
          some value at h
        rw [stored]
        cases hread : vault (service server) key <;> rw [hread] at h <;>
          exact Or.inr (Option.some.inj h).symm
      · rcases hfails with ⟨message, rfl⟩ | ⟨hindex, _⟩
        · exact Or.inl h
        · exact absurd hindex hu

end Changes

section Runs
variable {start : Vault} {es : List StoreEvent} {σ σ' : Processes} {e : StoreEvent} {i : ℕ}
  {call : StoreCall} {p : KeyringProg StoreReply} {φ : Seen}

theorem run_ordinary (h : Run start Ordinary es σ) (hi : σ.tasks i = some (call, p)) :
    call.Ordinary := by
  obtain ⟨later, earlier, hes⟩ := List.append_of_mem (run_spawned h hi)
  obtain ⟨_, _, _, hk, _⟩ := run_event h hes
  exact hk

theorem run_storing (h : Run start Ordinary es σ) (hi : σ.tasks i = some (call, p)) :
    Obeys (storing call) Told p (trail seeing i es) := by
  refine run_follows (P := seeing)
    (T := fun (call : StoreCall) p φ => call.Ordinary → Obeys (storing call) Told p φ)
    (G := fun _ _ => True) ?_ (fun _ _ _ _ _ _ _ => trivial)
    (fun _ hord => obeys_serveStore hord) h hi (run_ordinary h hi)
  intro call op next φ ans ht _ hord
  exact (ht hord).2 ans

theorem looked_cons {α : Type} {what : Vault → α} {seen : α}
    (h : Looked start es i call what seen) (he : e.task = some i → ∃ op ans, e = .act i op ans) :
    Looked start (e::es) i call what seen := by
  obtain ⟨between, before, τ, rfl, hτ, hrequest, hacts, hseen⟩ := h
  exact ⟨e::between, before, τ, rfl, hτ, hrequest, List.forall_mem_cons.mpr ⟨he, hacts⟩, hseen⟩

theorem looked_now {α : Type} (h : Run start Ordinary es σ) (hi : requestOf i es = some call)
    (op : KeyringOp) (ans : KeyringAns op) (what : Vault → α) :
    Looked start (.act i op ans::es) i call what (what σ.shared) :=
  ⟨[.act i op ans], es, σ, rfl, h, hi, by simp, rfl⟩

structure Informed (start : Vault) (es : List StoreEvent) (i : ℕ) (call : StoreCall) (φ : Seen) :
    Prop where
  names : ∀ names, φ.names = some names →
    Looked start es i call (fun vault => listed vault call.server) names
  value : ∀ server key value, call = .get server key → φ.value = some value →
    Looked start es i call (fun vault => stored vault server key) value

theorem informed_idle : Informed start es i call {} := ⟨nofun, nofun⟩

theorem informed_cons (h : Informed start es i call φ)
    (he : e.task = some i → ∃ op ans, e = .act i op ans) : Informed start (e::es) i call φ :=
  ⟨fun names hnames => looked_cons (h.names names hnames) he,
    fun server key value hcall hvalue => looked_cons (h.value server key value hcall hvalue) he⟩

theorem informed_act {vault' : Vault} {op : KeyringOp} {ans : KeyringAns op}
    (hr : Run start Ordinary es σ) (hi : σ.tasks i = some (call, p))
    (h : Informed start es i call φ) (hmay : changes call φ op)
    (hp : Working σ.shared op ans vault') :
    Informed start (.act i op ans::es) i call (seenAfter φ op ans) := by
  have hrequest : requestOf i es = some call := by rw [run_request hr, hi]; rfl
  have hact : ∃ op' ans', (.act i op ans : StoreEvent) = .act i op' ans' := ⟨op, ans, rfl⟩
  constructor
  · intro names hnames
    rcases names_seen hmay hp hnames with hold | rfl
    · exact looked_cons (h.names names hold) fun _ => hact
    · exact looked_now hr hrequest op ans fun vault => listed vault call.server
  · intro server key value hcall hvalue
    subst hcall
    rcases value_seen hmay hp hvalue with hold | rfl
    · exact looked_cons (h.value server key value rfl hold) fun _ => hact
    · exact looked_now hr hrequest op ans fun vault => stored vault server key

theorem run_informed (h : Run start Ordinary es σ) (hi : σ.tasks i = some (call, p)) :
    Informed start es i call (trail seeing i es) := by
  induction h generalizing p with
  | start => cases hi
  | @step es σ σ' e hr _ hs ih =>
    cases hs with
    | @outside e _ _ => exact e.elim
    | @spawn j request _ | @finish j _ _ _ | @drop j _ _ _ _ _ =>
      by_cases hj : j = i
      · simpa [trail, hj, seeing] using informed_idle
      · rw [assign_other σ hj] at hi
        rw [trail_other _ es (by simpa [Event.task] using hj)]
        exact informed_cons (ih hi) fun htask => absurd (Option.some.inj htask) hj
    | @act j call' op next ans vault' hj' hp =>
      by_cases hj : j = i
      · subst hj
        simp only [assign_self, Option.some.injEq, Prod.mk.injEq] at hi
        obtain ⟨rfl, rfl⟩ := hi
        rw [trail, if_pos rfl]
        exact informed_act hr hj' (ih hj') (run_storing hr hj').1 hp
      · rw [assign_other σ hj] at hi
        rw [trail, if_neg hj]
        exact informed_cons (ih hi) fun htask => absurd (Option.some.inj htask) hj

/-- What any number of commands can have done to the keyring. -/
structure Bounded (start : Vault) (es : List StoreEvent) (vault : Vault) : Prop where
  values : ∀ server key, key ≠ indexUser → Origin start es server key (stored vault server key)
  names : ∀ server, Within start es server (listed vault server)

theorem bounded_start : Bounded start [] start := by
  constructor
  · exact fun server key _ => .initial
  · exact fun server => ⟨fun _ hname _ => hname, fun _ hname => Or.inl hname⟩

theorem bounded_append {vault : Vault} (between : List StoreEvent) (h : Bounded start es vault) :
    Bounded start (between ++ es) vault :=
  ⟨fun server key hkey => origin_append between (h.values server key hkey),
    fun server => within_append between (h.names server)⟩

theorem bounded_step (hr : Run start Ordinary es σ)
    (h : ∀ between before τ, es = between ++ before → Run start Ordinary before τ →
      Bounded start before τ.shared) (hs : Step σ e σ') : Bounded start (e::es) σ'.shared := by
  have hnow := h [] es σ rfl hr
  cases hs with
  | @outside e _ _ => exact e.elim
  | spawn _ _ | finish _ | drop _ _ => exact bounded_append [_] hnow
  | @act j call op next ans vault' hj hp =>
    have hrequest : requestOf j es = some call := by rw [run_request hr, hj]; rfl
    have hmay := (run_storing hr hj).1
    constructor
    · exact fun server key hkey =>
        origin_step hkey (hnow.values server key hkey) hrequest hmay hp
    · refine within_step hnow.names hrequest (fun names hnames => ?_) hmay hp
      obtain ⟨between, before, τ, rfl, hτ, _, _, rfl⟩ := (run_informed hr hj).names names hnames
      exact within_append between ((h between before τ rfl hτ).names call.server)

theorem run_bounded (h : Run start Ordinary es σ) : Bounded start es σ.shared := by
  induction hn : es.length using Nat.strong_induction_on generalizing es σ with
  | _ n ih =>
    cases h with
    | start => exact bounded_start
    | @step es σ σ' e hr _ hs =>
      refine bounded_step hr (fun between before τ hes hτ => ih before.length ?_ hτ rfl) hs
      rw [← hn, hes, List.length_cons, List.length_append]
      omega

end Runs

section Overlap

def ordinary (_ : List StoreEvent) (_ : Vault) : StoreEvent → Bool
  | .spawn _ (.change command) => command.key ≠ indexUser
  | .spawn _ (.get _ key) => key ≠ indexUser
  | _ => true

end Overlap

end FaninMcp.ConcurrentStores
