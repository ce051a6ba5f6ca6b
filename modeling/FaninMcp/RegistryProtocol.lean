import FaninMcp.RegistryWorld

/-!
# The protocol of a registry call

What a task's own operations say about it: the locks it holds, the guard it
found, the server it saw absent, the attempt it is in, the entry it works on and
the refetch it owes. A task connects only behind the guard of a server it saw
absent, inserts only what it connected, and is done with a refetch before it
goes on.
-/

set_option autoImplicit false

namespace FaninMcp.RegistryProtocol
open Foundation.RustText Foundation.JsonText Foundation.AsyncPrograms FaninMcp.ConfigModel
  FaninMcp.ErrorModel FaninMcp.RegistryModel

structure Trail where
  locks : List Lock := []
  named : Option (Text × ℕ) := none
  absent : Option Text := none
  attempt : Option Text := none
  serving : Option Entry := none
  built : Option Entry := none
  got : Option Entry := none
  refetch : Option Entry := none
  asked : Option Entry := none
  fetched : Option (Entry × Listing) := none

def Trail.guarding (φ : Trail) (server : Text) : Bool :=
  match φ.named with
  | some (other, guard) => other = server && φ.locks.contains (.init guard)
  | none => false

def isInit : Lock → Bool
  | .init _ => true
  | _ => false

def Trail.enter (φ : Trail) (lock : Lock) : Trail := { φ with locks := lock :: φ.locks }

def Trail.leave (φ : Trail) (lock : Lock) : Trail :=
  { φ with
    locks := φ.locks.filter (· != lock)
    absent := if isInit lock then none else φ.absent }

def after (φ : Trail) : (op : Op) → Ans op → Trail
  | .acquire lock, _ => φ.enter lock
  | .release lock, _ => φ.leave lock
  | .guardEntry server, guard => { φ with named := some (server, guard) }
  | .entriesGet _, some entry => { φ with got := some entry.1 }
  | .entriesGet server, none =>
    { φ with absent := if φ.guarding server then some server else φ.absent }
  | .entriesInsert _ entry, _ => { φ with got := some entry.1, absent := none, built := none }
  | .connectBegin server, _ => { φ with attempt := some server }
  | .connectEnd _, _ => { φ with attempt := none, serving := none }
  | .serve _, .ok entry => { φ with serving := some entry.1, asked := none, fetched := none }
  | .newEntry entry _, _ => { φ with built := some entry }
  | .listRequest entry, _ => { φ with asked := some entry, fetched := none }
  | .listReply entry, .ok tools => { φ with asked := none, fetched := some (entry, tools) }
  | .listReply _, .error _ => { φ with asked := none }
  | .swapDirty entry, true => { φ with refetch := some entry, asked := none, fetched := none }
  | .storeDirty _, _ => { φ with refetch := none }
  | .writeTools _ _, _ => { φ with refetch := none }
  | .abandon, _ => {}
  | _, _ => φ

def may (φ : Trail) : Op → Prop
  | .acquire (.init guard) => φ.locks = [] ∧ ∃ server, φ.named = some (server, guard)
  | .acquire _ => ∀ lock ∈ φ.locks, isInit lock = true
  | .release lock => lock ∈ φ.locks ∧ (isInit lock = true → φ.attempt = none)
  | .guardEntry _ => φ.locks = [.initGuards] ∧ φ.absent = none
  | .entriesGet _ => .entriesRead ∈ φ.locks
  | .entriesInsert server entry =>
    .entriesWrite ∈ φ.locks ∧ φ.absent = some server ∧ φ.built = some entry.1 ∧ φ.attempt = none
  | .connectBegin server => φ.absent = some server ∧ φ.attempt = none ∧ φ.refetch = none
  | .connectEnd server | .spawnTransport server | .serve server => φ.attempt = some server
  | .newEntry entry tools => φ.serving = some entry ∧ φ.fetched = some (entry, tools)
  | .listRequest entry => φ.serving = some entry ∨ φ.refetch = some entry
  | .listReply entry => φ.asked = some entry
  | .loadDirty entry | .callRequest entry _ _ | .callReply entry =>
    φ.got = some entry ∧ φ.refetch = none ∧ φ.locks = []
  | .swapDirty entry => φ.got = some entry ∧ φ.refetch = none ∧ φ.attempt = none
  | .readTools entry => φ.got = some entry ∧ φ.refetch = none ∧ .toolsRead entry ∈ φ.locks
  | .storeDirty entry => φ.refetch = some entry
  | .writeTools entry fresh =>
    φ.refetch = some entry ∧ φ.fetched = some (entry, fresh) ∧ .toolsWrite entry ∈ φ.locks
  | _ => True

abbrev registryProtocol : Protocol registryOps := ⟨Trail, {}, may, after⟩

structure Clean (φ : Trail) : Prop where
  locks : φ.locks = []
  absent : φ.absent = none
  attempt : φ.attempt = none
  refetch : φ.refetch = none

theorem clean_idle : Clean {} := ⟨rfl, rfl, rfl, rfl⟩

/-- The entry a call works with is the one it found or inserted. -/
def OnEntry (entry : Entry) (φ : Trail) : Prop := Clean φ ∧ φ.got = some entry

section Scopes
variable {α : Type}

theorem withLock_eq (lock : Lock) (body : RegistryProg α) : withLock lock body =
    .act (.acquire lock) (fun _ => body >>= fun a => .act (.release lock) fun _ => .done a) := rfl

theorem obeys_withLock {post : α → Trail → Prop} {lock : Lock} {body : RegistryProg α} {φ : Trail}
    (hmay : may φ (.acquire lock))
    (h : Obeys registryProtocol (fun a ψ =>
      (lock ∈ ψ.locks ∧ (isInit lock = true → ψ.attempt = none)) ∧ post a (ψ.leave lock))
      body (φ.enter lock)) :
    Obeys registryProtocol post (withLock lock body) φ := by
  rw [withLock_eq]
  refine ⟨hmay, fun _ => obeys_bind (obeys_mono (fun a ψ hψ => ?_) h)⟩
  exact ⟨hψ.1, fun _ => hψ.2⟩

theorem filter_locks {φ : Trail} (lock : Lock) (hi : isInit lock = false)
    (hl : ∀ other ∈ φ.locks, isInit other = true) : φ.locks.filter (· != lock) = φ.locks := by
  rw [List.filter_eq_self]
  intro other ho
  have hne : other ≠ lock := by
    rintro rfl
    rw [hl other ho] at hi
    cases hi
  simpa using hne

theorem attempt_eq (server : Text) (config : ServerConfig) (env headers : TextMap Text) :
    attempt server config env headers = .act (.connectBegin server) (fun _ =>
      timed (connect server config env headers) >>= fun out => .act (.connectEnd server) fun _ =>
        .done (out.getD (.error (.upstreamTimeout server none)))) := rfl

end Scopes

section Lookups
variable {φ : Trail}

theorem guarding_enter (lock : Lock) (hi : isInit lock = false) (server : Text) :
    (φ.enter lock).guarding server = φ.guarding server := by
  simp only [Trail.guarding, Trail.enter]
  cases φ.named with
  | none => rfl
  | some found =>
    have hne : ∀ guard, Lock.init guard ≠ lock := by
      rintro guard rfl
      cases hi
    simp [hne]

theorem obeys_lookupEntry {server : Text} {post : Option (EntryOf server) → Trail → Prop}
    (hl : ∀ lock ∈ φ.locks, isInit lock = true)
    (h : ∀ found, post found (after φ (.entriesGet server) found)) :
    Obeys registryProtocol post (lookupEntry server) φ := by
  have hlocks := filter_locks (φ := φ) .entriesRead rfl hl
  have hguarding := guarding_enter (φ := φ) .entriesRead rfl server
  refine obeys_withLock hl ⟨by simp [may, Trail.enter], fun found => ?_⟩
  have hleave : (after (φ.enter .entriesRead) (.entriesGet server) found).leave .entriesRead =
      after φ (.entriesGet server) found := by
    cases found with
    | none =>
      simp only [after, hguarding]
      simp [Trail.leave, Trail.enter, isInit, hlocks]
    | some entry => simp [after, Trail.leave, Trail.enter, isInit, hlocks]
  refine ⟨⟨?_, by simp [isInit]⟩, hleave ▸ h found⟩
  cases found <;> simp [after, Trail.enter]

end Lookups

section Resolution

def isResolution : Op → Bool
  | .storeGet _ _ | .envVar _ | .registerSecret _ | .headerName _ | .headerValue _ => true
  | _ => false

/-- What is done with the resolved values before a transport starts. -/
def isPreparation : Op → Bool
  | .registerSecret _ | .headerName _ | .headerValue _ => true
  | _ => false

theorem preparation_resolution {op : Op} (h : isPreparation op = true) :
    isResolution op = true := by
  cases op <;> first | rfl | cases h

/-- The errors of a connection and of an inventory: they are about the server
asked for, and name no tool. -/
inductive ErrorAbout (config : TomlConfig) (server : Text) : ToolError → Prop
  | unknownServer : server ∉ config.servers → ErrorAbout config server (.unknownServer server)
  | upstreamConnect (message : Text) : ErrorAbout config server (.upstreamConnect server message)
  | upstreamCall (message : Text) : ErrorAbout config server (.upstreamCall server [] message)
  | upstreamDisconnected : ErrorAbout config server (.upstreamDisconnected server [])
  | upstreamTimeout : ErrorAbout config server (.upstreamTimeout server none)
  | credentialResolution (key : Text) : ErrorAbout config server (.credentialResolution server key)

def Fails {α : Type} (E : ToolError → Prop) (outcome : Outcome α) : Prop :=
  ∀ e, outcome = .error e → E e

theorem fails_ok {α : Type} {E : ToolError → Prop} (a : α) : Fails E (.ok a) := by
  rintro e ⟨⟩

theorem fails_error {α : Type} {E : ToolError → Prop} {e : ToolError} (h : E e) :
    Fails E (.error e : Outcome α) := by
  rintro _ ⟨⟩
  exact h

abbrev Blames {α : Type} (config : TomlConfig) (server : Text) : Outcome α → Prop :=
  Fails (ErrorAbout config server)

abbrev Undenied {α : Type} : Outcome α → Prop := Fails (·.denies = false)

variable {config : TomlConfig}

theorem errorAbout_undenied {server : Text} {e : ToolError} (hin : server ∈ config.servers)
    (h : ErrorAbout config server e) : e.denies = false := by
  cases h with
  | unknownServer hout => exact absurd hin hout
  | upstreamConnect _ => rfl
  | upstreamCall _ => rfl
  | upstreamDisconnected => rfl
  | upstreamTimeout => rfl
  | credentialResolution _ => rfl

section Failing
variable {E : ToolError → Prop} {server : Text}

theorem resolveFrom_fails (hkey : ∀ key, E (.credentialResolution server key)) (mode : ScanMode)
    (result raw : Text) :
    (resolveFrom server mode result raw).All (isResolution · = true) (Fails E) := by
  fun_induction resolveFrom server mode result raw with
  | case1 result => exact fails_ok _
  | case2 => assumption
  | case3 => assumption
  | case4 => exact fails_ok _
  | case5 => assumption
  | case6 name result rest hname ih =>
    have hfound : ∀ value, (do
        doing (.registerSecret value)
        resolveFrom server .literal (result ++ value) rest :
        RegistryProg (Outcome Text)).All (isResolution · = true) (Fails E) :=
      fun value => ⟨rfl, fun _ => ih value⟩
    refine ⟨rfl, fun preferred => ?_⟩
    rcases preferred with e | (_ | value)
    · exact ⟨rfl, Option.forall.mpr ⟨fails_error (hkey name), hfound⟩⟩
    · exact ⟨rfl, Option.forall.mpr ⟨fails_error (hkey name), hfound⟩⟩
    · exact hfound value
  | case7 => assumption

theorem resolveEnvValue_fails (hkey : ∀ key, E (.credentialResolution server key)) (raw : Text) :
    (resolveEnvValue server raw).All (isResolution · = true) (Fails E) := by
  rw [resolveEnvValue]
  split_ifs
  · exact fails_ok _
  · exact resolveFrom_fails hkey .literal [] raw

theorem resolveValues_fails (hkey : ∀ key, E (.credentialResolution server key)) (register : Bool)
    (values : List (Σ _ : Text, Text)) (resolved : TextMap Text) :
    (resolveValues server register values resolved).All (isResolution · = true) (Fails E) := by
  induction values generalizing resolved with
  | nil => exact fails_ok _
  | cons entry rest ih =>
    refine all_bind (all_mono (fun _ h => h) (fun out hout => ?_)
      (resolveEnvValue_fails hkey entry.2))
    cases out with
    | error e => exact fails_error (hout e rfl)
    | ok value =>
      cases register with
      | true => exact ⟨rfl, fun _ => ih _⟩
      | false => exact ih _

theorem resolveCwd_fails (hkey : ∀ key, E (.credentialResolution server key))
    (hconnect : ∀ message, E (.upstreamConnect server message)) (serverConfig : ServerConfig) :
    (resolveCwd server serverConfig).All (isResolution · = true) (Fails E) := by
  rw [resolveCwd]
  split_ifs
  · cases serverConfig.cwd with
    | none => exact fails_ok _
    | some raw =>
      refine all_bind (all_mono (fun _ h => h) (fun out hout => ?_)
        (resolveEnvValue_fails hkey raw))
      cases out with
      | error e => exact fails_error (hout e rfl)
      | ok value =>
        dsimp only
        split_ifs
        · exact fails_error (hconnect _)
        · exact fails_ok _
  · exact fails_ok _

theorem buildHttpHeaders_fails (hconnect : ∀ message, E (.upstreamConnect server message))
    (headers : List (Σ _ : Text, Text)) :
    (buildHttpHeaders server headers).All (isPreparation · = true) (Fails E) := by
  induction headers with
  | nil => exact fails_ok _
  | cons entry rest ih =>
    refine ⟨rfl, fun name => ?_⟩
    cases name with
    | error e => exact fails_error (hconnect _)
    | ok _ =>
      refine ⟨rfl, fun value => ?_⟩
      cases value with
      | error e => exact fails_error (hconnect _)
      | ok _ => exact ih

end Failing

theorem registerAll_all (values : List (Σ _ : Text, Text)) :
    (registerAll values).All (isPreparation · = true) (fun _ => True) := by
  induction values with
  | nil => exact trivial
  | cons entry rest ih => exact ⟨rfl, fun _ => ih⟩

end Resolution

end FaninMcp.RegistryProtocol
