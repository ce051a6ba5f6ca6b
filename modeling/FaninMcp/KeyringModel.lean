import FaninMcp.ConfigModel
import FaninMcp.Foundation.JsonRoundTrip
import FaninMcp.Foundation.SequentialRuns

/-!
# The keyring store

A credential is the password of an entry whose service names the server and
whose user names the key. The keyring cannot list its entries, so the names are
kept in one more entry of the same service, as a JSON array that every change
reads, modifies and writes back.
-/

set_option autoImplicit false

namespace FaninMcp.KeyringModel
open Foundation.RustText Foundation.JsonText Foundation.AsyncPrograms

inductive KeyringError where
  | noEntry
  | other (message : Text)

def KeyringError.display : KeyringError → Text
  | .noEntry => "No matching entry found in secure storage".toList
  | .other message => message

/-- The steps a keyring is asked for, and the iteration over a hash set. -/
inductive KeyringOp where
  | entry (service user : Text)
  | getPassword (service user : Text)
  | setPassword (service user password : Text)
  | deleteCredential (service user : Text)
  | iterate (keys : Finset Text)

abbrev KeyringAns : KeyringOp → Type
  | .entry _ _ => Except KeyringError Unit
  | .getPassword _ _ => Except KeyringError Text
  | .setPassword _ _ _ => Except KeyringError Unit
  | .deleteCredential _ _ => Except KeyringError Unit
  | .iterate keys => {order : List Text // order.toFinset = keys ∧ order.Nodup}

abbrev keyringOps : Signature := ⟨KeyringOp, KeyringAns, fun _ => true⟩

abbrev KeyringProg : Type → Type := Prog keyringOps

def calling (op : KeyringOp) : KeyringProg (KeyringAns op) := perform (S := keyringOps) op

section Store

def service (server : Text) : Text := "fanin-mcp/".toList ++ server

def indexUser : Text := "__CRED_KEYS__".toList

def entry (server key : Text) : KeyringProg (Except Text Unit) := do
  match ← calling (.entry (service server) key) with
  | .ok () => return .ok ()
  | .error e => return .error ("keyring entry error for ".toList ++ server ++ "/".toList ++ key ++
      ": ".toList ++ e.display)

def indexEntry (server : Text) : KeyringProg (Except Text Unit) := do
  match ← calling (.entry (service server) indexUser) with
  | .ok () => return .ok ()
  | .error e => return .error ("keyring index error for ".toList ++ server ++ ": ".toList ++
      e.display)

/-- `from_str::<Vec<String>>`. -/
def decodeNames (text : Text) : Option (List Text) :=
  match parse text with
  | some (.arr items) => items.mapM Json.asStr
  | _ => none

def encodeNames (names : List Text) : Text := render (.arr (names.map .str))

def loadIndex (server : Text) : KeyringProg (Finset Text) := do
  match ← indexEntry server with
  | .error _ => return ∅
  | .ok () =>
    match ← calling (.getPassword (service server) indexUser) with
    | .ok text =>
      match decodeNames text with
      | some names => return names.toFinset
      | none => return ∅
    | .error _ => return ∅

def saveIndex (server : Text) (keys : Finset Text) : KeyringProg (Except Text Unit) := do
  match ← indexEntry server with
  | .error e => return .error e
  | .ok () =>
    let order ← calling (.iterate keys)
    match ← calling (.setPassword (service server) indexUser (encodeNames order.1)) with
    | .ok () => return .ok ()
    | .error e => return .error ("failed to save keyring index for ".toList ++ server ++
        ": ".toList ++ e.display)

def get (server key : Text) : KeyringProg (Except Text (Option Text)) := do
  match ← entry server key with
  | .error e => return .error e
  | .ok () =>
    match ← calling (.getPassword (service server) key) with
    | .ok value => return .ok (some value)
    | .error .noEntry => return .ok none
    | .error (.other e) => return .error ("keyring get failed for ".toList ++ server ++
        "/".toList ++ key ++ ": ".toList ++ e)

def set (server key value : Text) : KeyringProg (Except Text Unit) := do
  match ← entry server key with
  | .error e => return .error e
  | .ok () =>
    match ← calling (.setPassword (service server) key value) with
    | .error e => return .error ("keyring set failed for ".toList ++ server ++ "/".toList ++ key ++
        ": ".toList ++ e.display)
    | .ok () =>
      let idx ← loadIndex server
      saveIndex server (insert key idx)

def dropEntry (server key : Text) : KeyringProg Unit := do
  match ← entry server key with
  | .error _ => return ()
  | .ok () =>
    let _ ← calling (.deleteCredential (service server) key)
    return ()

def delete (server key : Text) : KeyringProg (Except Text Unit) := do
  dropEntry server key
  let idx ← loadIndex server
  let _ ← saveIndex server (idx.erase key)
  return .ok ()

def listNames (server : Text) : KeyringProg (Except Text (List Text)) := do
  let idx ← loadIndex server
  return .ok (idx.sort (· ≤ ·))

end Store

section Backend

abbrev Vault := Text → Text → Option Text

def put (vault : Vault) (service user : Text) (password : Option Text) : Vault :=
  Function.update vault service (Function.update (vault service) user password)

def Faithful : Semantics keyringOps Vault
  | vault, .entry _ _, ans, vault' => ans = .ok () ∧ vault' = vault
  | vault, .getPassword service user, ans, vault' =>
    ans = (vault service user).elim (.error .noEntry) .ok ∧ vault' = vault
  | vault, .setPassword service user password, ans, vault' =>
    ans = .ok () ∧ vault' = put vault service user (some password)
  | vault, .deleteCredential service user, ans, vault' =>
    ans = (vault service user).elim (.error .noEntry) (fun _ => .ok ()) ∧
      vault' = put vault service user none
  | vault, .iterate _, _, vault' => vault' = vault

/-- A step that fails, or an index that is read as something else. -/
def Fails : (op : KeyringOp) → KeyringAns op → Prop
  | .entry _ _, ans => ∃ message, ans = .error (.other message)
  | .getPassword _ user, ans => (∃ message, ans = .error (.other message)) ∨
    user = indexUser ∧ ∃ text, ans = .ok text ∧ decodeNames text = none
  | .setPassword _ _ _, ans => ∃ message, ans = .error (.other message)
  | .deleteCredential _ _, ans => ∃ message, ans = .error (.other message)
  | .iterate _, _ => False

/-- A backend each of whose steps may fail, and then has no effect. -/
def Fallible : Semantics keyringOps Vault := fun vault op ans vault' =>
  Faithful vault op ans vault' ∨ Fails op ans ∧ vault' = vault

def namesOf (text : Text) : Finset Text := ((decodeNames text).getD []).toFinset

/-- What `load_index` makes of the answer to its read. -/
def namesRead : Except KeyringError Text → Finset Text
  | .ok text => namesOf text
  | .error _ => ∅

def listed (vault : Vault) (server : Text) : Finset Text :=
  (((vault (service server) indexUser).bind decodeNames).getD []).toFinset

def stored (vault : Vault) (server key : Text) : Option Text := vault (service server) key

def Answers {α : Type} (p : KeyringProg α) (vault : Vault) (out : α) : Prop :=
  ∃ t vault', Runs Faithful p vault t out vault'

end Backend

section Entries
variable {vault : Vault} {server key : Text}

theorem service_injective {s s' : Text} (h : service s = service s') : s = s' :=
  List.append_cancel_left h

theorem put_same (vault : Vault) (s u : Text) (password : Option Text) :
    put vault s u password s u = password := by
  simp [put]

theorem put_user (vault : Vault) (s : Text) {u u' : Text} (h : u' ≠ u) (password : Option Text) :
    put vault s u password s u' = vault s u' := by
  simp [put, h]

theorem put_service (vault : Vault) {s s' : Text} (h : s' ≠ s) (u u' : Text)
    (password : Option Text) : put vault s u password s' u' = vault s' u' := by
  simp [put, h]

theorem mapM_asStr (names : List Text) : (names.map Json.str).mapM Json.asStr = some names := by
  induction names with
  | nil => rfl
  | cons name rest ih =>
    simp only [List.map_cons, List.mapM_cons, Json.asStr, Option.pure_def, Option.bind_eq_bind,
      Option.bind_some, ih]

theorem decode_encode (names : List Text) : decodeNames (encodeNames names) = some names := by
  rw [decodeNames, encodeNames, parse_rendered]
  exact mapM_asStr names

theorem listed_index (vault : Vault) (server : Text) (names : List Text) :
    listed (put vault (service server) indexUser (some (encodeNames names))) server =
      names.toFinset := by
  rw [listed, put_same, Option.bind_some, decode_encode]
  rfl

theorem namesRead_true (vault : Vault) (server : Text) :
    namesRead ((vault (service server) indexUser).elim (.error .noEntry) .ok) =
      listed vault server := by
  rw [listed]
  cases vault (service server) indexUser <;> rfl

theorem listed_user (vault : Vault) (server : Text) {u : Text} (h : indexUser ≠ u)
    (password : Option Text) : listed (put vault (service server) u password) server =
      listed vault server := by
  rw [listed, put_user vault _ h, listed]

theorem listed_service (vault : Vault) {s s' : Text} (h : s' ≠ s) (u : Text)
    (password : Option Text) : listed (put vault (service s) u password) s' = listed vault s' := by
  rw [listed, put_service vault (fun heq => h (service_injective heq)), listed]

end Entries

end FaninMcp.KeyringModel
