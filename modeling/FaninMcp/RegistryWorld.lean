import FaninMcp.RegistryModel

/-!
# The state behind the registry

What the operations of a registry call do to the shared state, and what happens
without it: an upstream changes its tool list, with or without telling, its
notification is handled, or it takes the snapshot it answers a request with.
-/

set_option autoImplicit false

namespace FaninMcp.RegistryWorld
open Foundation.RustText Foundation.JsonText Foundation.AsyncPrograms FaninMcp.ConfigModel
  FaninMcp.ErrorModel FaninMcp.RegistryModel

/-- The upstream's side of a connection: its tool list, how often the list has
changed, and the notifications not yet handled. -/
structure Upstream where
  tools : List Tool
  revision : ℕ
  pending : ℕ

/-- `inflight` is the request to `tools/list` a task is waiting for, with the
snapshot it will be answered with once that is taken. -/
structure Shared where
  holders : Lock → List ℕ
  initGuards : Text → Option ℕ
  guards : ℕ
  entries : (server : Text) → Option (EntryOf server)
  serials : ℕ
  dirty : Entry → Bool
  cached : Entry → Option Listing
  upstream : Entry → Upstream
  inflight : ℕ → Option (Entry × Option Listing)

def Shared.initial (tools : Entry → List Tool) : Shared where
  holders _ := []
  initGuards _ := none
  guards := 0
  entries _ := none
  serials := 0
  dirty _ := false
  cached _ := none
  upstream entry := ⟨tools entry, 0, 0⟩
  inflight _ := none

/-- The locks that exclude the given one, itself among them unless it is shared. -/
def conflicts : Lock → List Lock
  | .entriesRead => [.entriesWrite]
  | .entriesWrite => [.entriesRead, .entriesWrite]
  | .initGuards => [.initGuards]
  | .init guard => [.init guard]
  | .toolsRead entry => [.toolsWrite entry]
  | .toolsWrite entry => [.toolsRead entry, .toolsWrite entry]

def Shared.free (σ : Shared) (lock : Lock) : Bool :=
  (conflicts lock).all fun other => (σ.holders other).isEmpty

def Shared.lock (σ : Shared) (i : ℕ) (lock : Lock) : Shared :=
  { σ with holders := Function.update σ.holders lock (i :: σ.holders lock) }

def Shared.unlock (σ : Shared) (i : ℕ) (lock : Lock) : Shared :=
  { σ with holders := Function.update σ.holders lock ((σ.holders lock).filter (· != i)) }

def Shared.forget (σ : Shared) (i : ℕ) : Shared :=
  { σ with
    holders := fun lock => (σ.holders lock).filter (· != i)
    inflight := Function.update σ.inflight i none }

def Shared.setDirty (σ : Shared) (entry : Entry) (dirty : Bool) : Shared :=
  { σ with dirty := Function.update σ.dirty entry dirty }

def Shared.install (σ : Shared) (entry : Entry) (tools : Listing) : Shared :=
  { σ with cached := Function.update σ.cached entry (some tools) }

def Shared.await (σ : Shared) (i : ℕ) (request : Option (Entry × Option Listing)) : Shared :=
  { σ with inflight := Function.update σ.inflight i request }

def Shared.insertEntry (σ : Shared) (server : Text) (entry : EntryOf server) : Shared :=
  { σ with entries := Function.update σ.entries server (some entry) }

/-- A new connection: its flag is clear and it has no inventory yet. -/
def Shared.open (σ : Shared) (entry : Entry) : Shared :=
  { σ with
    serials := σ.serials + 1
    dirty := Function.update σ.dirty entry false
    cached := Function.update σ.cached entry none }

/-- `guards.entry(server).or_insert_with(..)`, where `guard` is the one already
there, or else a new one. -/
def Shared.nameGuard (σ : Shared) (server : Text) (guard : ℕ) : Shared :=
  { σ with
    initGuards := Function.update σ.initGuards server (some guard)
    guards := if (σ.initGuards server).isSome then σ.guards else σ.guards + 1 }

/-- The answers a state admits. Upstreams, the environment and timers may
answer anything. -/
def Answers (i : ℕ) (σ : Shared) : (op : Op) → Ans op → Prop
  | .acquire lock, _ => σ.free lock = true
  | .guardEntry server, guard => guard = (σ.initGuards server).getD σ.guards
  | .entriesGet server, found => found = σ.entries server
  | .serve _, .ok entry => entry.1.serial = σ.serials
  | .listReply entry, .ok tools => σ.inflight i = some (entry, some tools)
  | .loadDirty entry, dirty => dirty = σ.dirty entry
  | .swapDirty entry, dirty => dirty = σ.dirty entry
  | .readTools entry, tools => σ.cached entry = some tools
  | _, _ => True

def effect (i : ℕ) (σ : Shared) : (op : Op) → Ans op → Shared
  | .acquire lock, _ => σ.lock i lock
  | .release lock, _ => σ.unlock i lock
  | .guardEntry server, guard => σ.nameGuard server guard
  | .entriesInsert server entry, _ => σ.insertEntry server entry
  | .serve _, .ok entry => σ.open entry
  | .newEntry entry tools, _ => σ.install entry tools
  | .listRequest entry, _ => σ.await i (some (entry, none))
  | .listReply _, _ => σ.await i none
  | .swapDirty entry, _ => σ.setDirty entry false
  | .storeDirty entry, _ => σ.setDirty entry true
  | .writeTools entry fresh, _ => σ.install entry fresh
  | .abandon, _ => σ.forget i
  | _, _ => σ

def Performs (i : ℕ) (σ : Shared) (op : Op) (ans : Ans op) (σ' : Shared) : Prop :=
  Answers i σ op ans ∧ σ' = effect i σ op ans

inductive Outside where
  | change (entry : Entry) (tools : List Tool)
  | drift (entry : Entry) (tools : List Tool)
  | handled (entry : Entry)
  | snapshot (i : ℕ)

def Shared.outside (σ : Shared) : Outside → Option Shared
  | .change entry tools =>
    let up := σ.upstream entry
    some { σ with upstream :=
      Function.update σ.upstream entry ⟨tools, up.revision + 1, up.pending + 1⟩ }
  | .drift entry tools =>
    let up := σ.upstream entry
    some { σ with upstream := Function.update σ.upstream entry ⟨tools, up.revision + 1, up.pending⟩ }
  | .handled entry =>
    let up := σ.upstream entry
    if 0 < up.pending then
      some { σ.setDirty entry true with
        upstream := Function.update σ.upstream entry ⟨up.tools, up.revision, up.pending - 1⟩ }
    else none
  | .snapshot i =>
    match σ.inflight i with
    | some (entry, none) =>
      let up := σ.upstream entry
      some (σ.await i (some (entry, some ⟨up.tools, up.revision⟩)))
    | _ => none

abbrev registryWorld : World registryOps where
  State := Shared
  Env := Outside
  Performs := Performs
  outside := Shared.outside
  release i σ := σ.forget i

/-- What a scheduler may decide: things go well, or the awaited operation fails,
or the timer or token that is looked at has fired. -/
inductive Hint where
  | well
  | fails (message : Text)
  | fires

/-- An answer the state admits, chosen by the hint where there is a choice. -/
def answer (hint : Hint) (i : ℕ) (σ : Shared) : (op : Op) → Option (Ans op)
  | .acquire lock => if σ.free lock then some () else none
  | .release _ | .entriesInsert _ _ | .connectBegin _ | .connectEnd _ | .newEntry _ _
  | .listRequest _ | .storeDirty _ | .writeTools _ _ | .callRequest _ _ _ | .registerSecret _
  | .abandon => some ()
  | .guardEntry server => some ((σ.initGuards server).getD σ.guards)
  | .entriesGet server => some (σ.entries server)
  | .spawnTransport _ | .headerName _ | .headerValue _ =>
    match hint with
    | .fails message => some (.error message)
    | _ => some (.ok ())
  | .serve server =>
    match hint with
    | .fails message => some (.error message)
    | _ => some (.ok ⟨⟨server, σ.serials⟩, rfl⟩)
  | .listReply entry =>
    match hint with
    | .fails message => some (.error (.other message))
    | _ =>
      match σ.inflight i with
      | some (asked, some tools) => if asked = entry then some (.ok tools) else none
      | _ => none
  | .loadDirty entry => some (σ.dirty entry)
  | .swapDirty entry => some (σ.dirty entry)
  | .readTools entry => σ.cached entry
  | .callReply _ =>
    match hint with
    | .fails message => some (.error (.other message))
    | _ => some (.ok (CallToolResult.success []))
  | .storeGet _ _ => some (.ok none)
  | .envVar key =>
    match hint with
    | .fails _ => some none
    | _ => some (some key)
  | .poll | .cancelled =>
    match hint with
    | .fires => some true
    | _ => some false
  | .unreachable _ => none

theorem answer_sound (hint : Hint) (i : ℕ) (σ : Shared) (op : Op) (ans : Ans op)
    (h : answer hint i σ op = some ans) : Answers i σ op ans := by
  cases op <;> try trivial
  case acquire lock =>
    rw [answer] at h
    split_ifs at h with hfree
    exact hfree
  case guardEntry server => exact (Option.some.inj h).symm
  case entriesGet server => exact (Option.some.inj h).symm
  case loadDirty entry => exact (Option.some.inj h).symm
  case swapDirty entry => exact (Option.some.inj h).symm
  case serve server =>
    cases hint <;> cases h <;> trivial
  case listReply entry =>
    cases hint with
    | fails message =>
      cases h
      trivial
    | well | fires =>
      simp only [answer] at h
      split at h
      · rename_i tools hin
        split_ifs at h with he
        cases h
        exact he ▸ hin
      · cases h

def responder : Responder registryWorld where
  Hint := Hint
  respond hint i σ op := (answer hint i σ op).map fun ans => (ans, effect i σ op ans)
  sound hint i σ op ans σ' h := by
    obtain ⟨_, hgiven, heq⟩ := Option.map_eq_some_iff.mp h
    cases heq
    exact ⟨answer_sound hint i σ op _ hgiven, rfl⟩

end FaninMcp.RegistryWorld
