import FaninMcp.MetaAcl
import FaninMcp.RegistryWalk

/-!
# What a request does around its connections

Whatever a request asks for, all it does outside of connecting to a server is
routine: it looks the entry up, refreshes, reads and forwards. A protocol that
has nothing to say about the routine, and rests between connections, is obeyed
by every request as soon as connecting obeys it.
-/

set_option autoImplicit false

namespace FaninMcp.RequestRoutine
open Foundation.RustText Foundation.JsonText Foundation.AsyncPrograms FaninMcp.ConfigModel
  FaninMcp.ErrorModel FaninMcp.NamespaceAcl FaninMcp.RegistryModel FaninMcp.RegistryProtocol
  FaninMcp.RegistryWalk FaninMcp.MetaTools FaninMcp.MetaAcl

def Routine : Op → Prop
  | .connectBegin _ | .connectEnd _ | .spawnTransport _ | .headerName _ | .headerValue _ | .serve _
  | .newEntry _ _ | .entriesInsert _ _ | .storeGet _ _ | .envVar _ | .registerSecret _ => False
  | _ => True

theorem refreshes_routine {op : Op} (h : Refreshes op) : Routine op := by
  cases op <;> first | exact trivial | exact h.elim

section Resting
variable (P : Protocol registryOps) (rest : P.Phase)

/-- The phase permits the routine and is not left by it. Wherever a task waits it
may look at its timers, and may abandon what it does, which brings it to rest. -/
structure Rests : Prop where
  routine : ∀ op, Routine op → P.may rest op ∧ ∀ ans, P.after rest op ans = rest
  polls : ∀ φ op, awaits op = true → P.may φ op →
    P.may φ .cancelled ∧ ∀ ans, P.after φ .cancelled ans = φ
  abandons : ∀ φ op, awaits op = true → P.may φ op →
    P.may φ .abandon ∧ ∀ ans, P.after φ .abandon ans = rest

def Settles {α : Type} (p : RegistryProg α) : Prop := Obeys P (fun _ φ => φ = rest) p rest

variable {P rest} {α β : Type}

theorem settles_done (a : α) : Settles P rest (.done a) := rfl

theorem settles_bind {p : RegistryProg α} {f : α → RegistryProg β} (hp : Settles P rest p)
    (hf : ∀ a, Settles P rest (f a)) : Settles P rest (p >>= f) := by
  refine obeys_bind (obeys_mono (fun a φ hφ => ?_) hp)
  rw [hφ]
  exact hf a

theorem settles_act {op : Op} {next : Ans op → RegistryProg α}
    (h : P.may rest op ∧ ∀ ans, P.after rest op ans = rest)
    (hnext : ∀ ans, Settles P rest (next ans)) :
    Settles P rest (.act (S := registryOps) op next) := by
  refine ⟨h.1, fun ans => ?_⟩
  rw [h.2]
  exact hnext ans

theorem settles_all (h : Rests P rest) {R : α → Prop} {p : RegistryProg α} (hp : p.All Routine R) :
    Settles P rest p :=
  obeys_quiet h.routine (fun _ _ => rfl) hp

theorem settles_withLock (h : Rests P rest) (lock : Lock) {body : RegistryProg α}
    (hbody : Settles P rest body) : Settles P rest (withLock lock body) := by
  rw [withLock_eq]
  exact settles_act (h.routine _ trivial) fun _ => settles_bind hbody fun a =>
    settles_act (h.routine _ trivial) fun _ => settles_done a

end Resting

section Requests
variable {P : Protocol registryOps} {rest : P.Phase} {config : TomlConfig}
  {active : ActiveNamespace} {server : Text}

theorem lookupEntry_routine (server : Text) :
    (lookupEntry server).All Routine (fun _ => True) :=
  withLock_all trivial trivial ⟨trivial, fun _ => trivial⟩

theorem settles_comes {α : Type} {p : RegistryProg (Outcome α)} : Settles P rest p ↔
    Obeys P (Comes (fun _ φ => φ = rest) fun _ φ => φ = rest) p rest :=
  have hsame : ∀ (out : Outcome α) (φ : P.Phase),
      Comes (fun _ ψ => ψ = rest) (fun _ ψ => ψ = rest) out φ ↔ φ = rest := fun _ _ => comes_same
  ⟨obeys_mono fun out φ => (hsame out φ).mpr, obeys_mono fun out φ => (hsame out φ).mp⟩

theorem settles_lookup (h : Rests P rest) :
    Obeys P (Finds (fun _ φ => φ = rest) (· = rest)) (lookupEntry server) rest := by
  refine obeys_mono (fun found φ hφ => ?_) (settles_all h (lookupEntry_routine server))
  cases found <;> exact hφ

theorem settles_getOrConnect (h : Rests P rest)
    (hconnect : Settles P rest (connectAbsent config server)) :
    Settles P rest (getOrConnect config server) := by
  have hnamed : (withLock .initGuards (doing (.guardEntry server))).All Routine
      (fun _ => True) := withLock_all trivial trivial ⟨trivial, fun _ => trivial⟩
  have hguard : ∀ φ, φ = rest → Obeys P (fun _ ψ => ψ = rest)
      (withLock .initGuards (doing (.guardEntry server))) φ := by
    rintro _ rfl
    exact settles_all h hnamed
  refine settles_comes.mpr (getOrConnect_walk (settles_lookup h) hguard ?_)
  rintro guard _ rfl
  refine settles_comes.mp (settles_withLock h _ (settles_comes.mpr ?_))
  refine connectGuarded_walk (settles_lookup h) ?_
  rintro _ rfl
  exact settles_comes.mp hconnect

theorem settles_refresh (h : Rests P rest) (entry : Entry) (server : Text) :
    Settles P rest (ensureFresh entry server) :=
  settles_all h (all_mono (fun _ hq => refreshes_routine hq) (fun _ _ => trivial)
    (ensureFresh_refreshes entry server))

theorem settles_read (h : Rests P rest) (entry : Entry) : Settles P rest (readInventory entry) :=
  settles_all h (all_mono (fun _ hq => refreshes_routine hq) (fun _ _ => trivial)
    (readInventory_refreshes entry))

theorem settles_fresh (h : Rests P rest) (entry : EntryOf server) (φ : P.Phase) (hφ : φ = rest) :
    Obeys P (Comes (fun _ ψ => ψ = rest) fun _ ψ => ψ = rest) (ensureFresh entry.1 server) φ := by
  rw [hφ]
  exact settles_comes.mp (settles_refresh h entry.1 server)

theorem settles_listed (h : Rests P rest) (entry : EntryOf server) (φ : P.Phase) (hφ : φ = rest) :
    Obeys P (fun _ ψ => ψ = rest) (readInventory entry.1) φ := by
  rw [hφ]
  exact settles_read h entry.1

theorem settles_inventory (h : Rests P rest)
    (hconnect : Settles P rest (connectAbsent config server)) :
    Settles P rest (inventory config server) :=
  settles_comes.mpr (inventory_walk (settles_comes.mp (settles_getOrConnect h hconnect))
    (settles_fresh h) (settles_listed h) fun _ _ _ hφ => hφ)

theorem settles_callTool (h : Rests P rest)
    (hconnect : Settles P rest (connectAbsent config server)) (tool : Text)
    (arguments : Option JsonObject) :
    Settles P rest (callTool config server tool arguments) := by
  refine settles_comes.mpr (callTool_walk (settles_comes.mp (settles_getOrConnect h hconnect))
    (settles_fresh h) (settles_listed h) (fun _ _ _ hφ => hφ) ?_)
  rintro entry _ _ rfl _
  have hforward : (forwardCall entry.1 tool arguments).All Routine (fun _ => True) :=
    ⟨trivial, fun _ => ⟨trivial, fun _ => trivial⟩⟩
  refine obeys_mono (fun out φ hφ => ?_) (settles_all h (timed_all trivial hforward))
  rcases out with _ | e | result <;> exact hφ

theorem settles_listRows (h : Rests P rest) (servers : List Text) (rows : List Row)
    (hconnect : ∀ server ∈ servers, Settles P rest (connectAbsent config server)) :
    Settles P rest (listRows config active servers rows) := by
  have hinventory : ∀ server ∈ servers, ∀ φ, φ = rest →
      Obeys P (Comes (fun _ ψ => ψ = rest) fun _ ψ => ψ = rest) (inventory config server) φ := by
    rintro server hs _ rfl
    exact settles_comes.mp (settles_inventory h (hconnect server hs))
  exact listRows_walk servers hinventory (fun _ _ hφ => hφ) (fun _ _ hφ => hφ)
    (fun _ _ hφ => hφ) rows rfl

theorem settles_invokeRaced (h : Rests P rest)
    (hconnect : Settles P rest (connectAbsent config server)) (tool : Text)
    (arguments : JsonObject) : Settles P rest (invokeRaced config server tool arguments) := by
  refine obeys_interruptible_waiting (fun φ op hw hmay => ?_) ?_
  · obtain ⟨habandon, hrest⟩ := h.abandons φ op hw hmay
    exact ⟨(h.polls φ op hw hmay).1, (h.polls φ op hw hmay).2, habandon, fun ans => hrest ans⟩
  · refine settles_bind (settles_callTool h hconnect tool (some arguments)) fun out => ?_
    cases out <;> exact settles_done _

theorem settles_dispatch (h : Rests P rest) (hconnect : ∀ server,
      active.isServerAllowed server = true → Settles P rest (connectAbsent config server))
    (request : Request) :
    Settles P rest (dispatchTool (.withRegistry config active) request) := by
  have hhandled := @dispatch_handled config active request
  generalize dispatchTool _ request = p at hhandled ⊢
  cases hhandled with
  | refused e => exact settles_done _
  | listing servers visible =>
    exact settles_listRows h servers [] fun server hs => hconnect server (visible server hs)
  | schema name server tool _ _ allowed =>
    exact settles_bind (settles_inventory h (hconnect server (isToolAllowed_server allowed)))
      fun _ => settles_done _
  | call server tool raw _ allowed =>
    exact settles_invokeRaced h (hconnect server (isToolAllowed_server allowed)) tool raw

end Requests

end FaninMcp.RequestRoutine
