import FaninMcp.KeyringModel
import FaninMcp.StructuredLog

/-!
# The credential commands

`cred set`, `cred list` and `cred rm` work on one store, each in a process of its
own. A secret is read from a hidden prompt, or as one line when stdin is no
terminal; everything else that is seen is a line on stderr, a diagnostic or the
exit code.
-/

set_option autoImplicit false

namespace FaninMcp.CredCommands
open Foundation.RustText Foundation.AsyncPrograms FaninMcp.KeyringModel FaninMcp.StructuredLog

inductive CredentialStoreChoice where
  | keyring
  | env
  deriving DecidableEq

/-- The arguments of a tracing macro; those shown with `%` come with their texts. -/
structure Diagnostic where
  level : Level
  fields : List (Text × Text)
  message : Text

/-- The keyring's operations, and what a process does on its terminal. -/
inductive CredOp where
  | keyring (op : KeyringOp)
  | isTerminal
  | promptPassword (prompt : Text)
  | readLine
  | eprintln (line : Text)
  | trace (diagnostic : Diagnostic)

abbrev CredAns : CredOp → Type
  | .keyring op => KeyringAns op
  | .isTerminal => Bool
  | .promptPassword _ => Except Text Text
  | .readLine => Except Text Text
  | .eprintln _ => Unit
  | .trace _ => Unit

abbrev credOps : Signature := ⟨CredOp, CredAns, fun _ => false⟩

abbrev CredProg : Type → Type := Prog credOps

def asking (op : CredOp) : CredProg (CredAns op) := perform (S := credOps) op

def onKeyring {α : Type} : KeyringProg α → CredProg α
  | .done a => .done a
  | .act op next => .act (.keyring op) fun ans => onKeyring (next ans)

/-- `CredentialStore`, as far as the commands use it. -/
structure CredentialStore where
  set : Text → Text → Text → KeyringProg (Except Text Unit)
  delete : Text → Text → KeyringProg (Except Text Unit)
  listNames : Text → KeyringProg (Except Text (List Text))

def keyringStore : CredentialStore :=
  ⟨KeyringModel.set, KeyringModel.delete, KeyringModel.listNames⟩

def envStore : CredentialStore :=
  ⟨fun _ _ _ => return .ok (), fun _ _ => return .ok (), fun _ => return .ok []⟩

def buildStore : CredentialStoreChoice → CredentialStore
  | .keyring => keyringStore
  | .env => envStore

def credentialBackendName : CredentialStoreChoice → Text
  | .keyring => "keyring".toList
  | .env => "env".toList

/-- `trim_end_matches(&['\r', '\n'][..])`. -/
def trimLineEnd (line : Text) : Text := line.rdropWhile fun c => c = '\r' ∨ c = '\n'

def promptForSecret (prompt : Text) : CredProg (Except Text Text) := do
  if ← asking .isTerminal then
    match ← asking (.promptPassword prompt) with
    | .ok s => return .ok (trimLineEnd s)
    | .error e => return .error ("failed to read secret from prompt: ".toList ++ e)
  else
    match ← asking .readLine with
    | .ok line => return .ok (trimLineEnd line)
    | .error e => return .error ("failed to read secret from stdin: ".toList ++ e)

inductive CredAction where
  | set (server key : Text)
  | list (server : Text)
  | rm (server key : Text)

inductive ExitCode where
  | success
  | failure
  deriving DecidableEq

def tracing (level : Level) (fields : List (Text × Text)) (message : String) : CredProg Unit :=
  asking (.trace ⟨level, fields, message.toList⟩)

def errorField (e : Text) : Text × Text := ("error".toList, e)

def backendField (choice : CredentialStoreChoice) : Text × Text :=
  ("backend".toList, credentialBackendName choice)

def serverField (server : Text) : Text × Text := ("server".toList, server)

def keyField (key : Text) : Text × Text := ("key".toList, key)

def printNames : List Text → CredProg Unit
  | [] => return ()
  | n::names => do
    asking (.eprintln n)
    printNames names

def credSet (server key : Text) (choice : CredentialStoreChoice) : CredProg ExitCode := do
  if choice = .env then
    tracing .error [backendField choice, serverField server, keyField key]
      ("cred set rejected: env credential store is read-only; set the process environment " ++
        "variable or choose --credential-store keyring")
    return .failure
  match ← promptForSecret ("Enter secret for ".toList ++ server ++ "/".toList ++ key ++
      ": ".toList) with
  | .error e =>
    tracing .error [errorField e, serverField server, keyField key]
      "cred set failed to read secret"
    return .failure
  | .ok secret =>
    if secret.isEmpty then
      tracing .error [serverField server, keyField key] "cred set: empty secret is not allowed"
      return .failure
    match ← onKeyring ((buildStore choice).set server key secret) with
    | .ok () =>
      tracing .info [serverField server, keyField key] "credential stored"
      return .success
    | .error e =>
      tracing .error [errorField e, backendField choice, serverField server, keyField key]
        ("cred set failed: selected credential store rejected the write; no secret was stored. " ++
          "Use a working keyring backend or set the process environment variable as fallback")
      return .failure

def credList (server : Text) (choice : CredentialStoreChoice) : CredProg ExitCode := do
  match ← onKeyring ((buildStore choice).listNames server) with
  | .ok names =>
    printNames names
    return .success
  | .error e =>
    tracing .error [errorField e, serverField server] "cred list failed"
    return .failure

def credRm (server key : Text) (choice : CredentialStoreChoice) : CredProg ExitCode := do
  if choice = .env then
    tracing .error [backendField choice, serverField server, keyField key]
      ("cred rm rejected: env credential store is read-only; remove the process environment " ++
        "variable or choose --credential-store keyring")
    return .failure
  match ← onKeyring ((buildStore choice).delete server key) with
  | .ok () =>
    tracing .info [serverField server, keyField key] "credential removed (if present)"
    return .success
  | .error e =>
    tracing .error [errorField e, backendField choice, serverField server, keyField key]
      "cred rm failed"
    return .failure

def runCred : CredAction → CredentialStoreChoice → CredProg ExitCode
  | .set server key, choice => credSet server key choice
  | .list server, choice => credList server choice
  | .rm server key, choice => credRm server key choice

section Desks

/-- The keyring, and the lines that will be typed or piped in, one after the other. -/
structure Desk where
  vault : Vault
  lines : List Text

/-- A secret read is the next line, or an error; past the end it is empty. -/
def ReadsSecret (desk : Desk) (ans : Except Text Text) (desk' : Desk) : Prop :=
  (∃ e, ans = .error e) ∧ desk' = desk ∨
    ans = .ok (desk.lines.headD []) ∧ desk' = { desk with lines := desk.lines.tail }

/-- The steps of a command at a desk, over a keyring that works as it is told to. -/
def AtDesk (keyring : Semantics keyringOps Vault) : Semantics credOps Desk
  | desk, .keyring op, ans, desk' =>
    ∃ vault', keyring desk.vault op ans vault' ∧ desk' = { desk with vault := vault' }
  | desk, .promptPassword _, ans, desk' => ReadsSecret desk ans desk'
  | desk, .readLine, ans, desk' => ReadsSecret desk ans desk'
  | desk, .isTerminal, _, desk' => desk' = desk
  | desk, .eprintln _, _, desk' => desk' = desk
  | desk, .trace _, _, desk' => desk' = desk

/-- What is seen of a command besides the secret that is typed; of a read, whether
it failed. -/
inductive Sight where
  | eprintln (line : Text)
  | trace (diagnostic : Diagnostic)
  | promptPassword (prompt : Text) (failure : Option Text)
  | readLine (failure : Option Text)

def failureOf : Except Text Text → Option Text
  | .ok _ => none
  | .error e => some e

def shown : Exchange credOps → Option Sight
  | ⟨.eprintln line, _⟩ => some (.eprintln line)
  | ⟨.trace diagnostic, _⟩ => some (.trace diagnostic)
  | ⟨.promptPassword prompt, ans⟩ => some (.promptPassword prompt (failureOf ans))
  | ⟨.readLine, ans⟩ => some (.readLine (failureOf ans))
  | _ => none

/-- Commands run one after the other, each with what was seen of it and its exit code. -/
inductive Invocations (keyring : Semantics keyringOps Vault) :
    Desk → List (CredAction × CredentialStoreChoice) → List (List Sight × ExitCode) → Desk → Prop
  | nil (desk : Desk) : Invocations keyring desk [] [] desk
  | cons {desk mid desk' : Desk} {action : CredAction} {choice : CredentialStoreChoice}
      {rest : List (CredAction × CredentialStoreChoice)} {t : List (Exchange credOps)}
      {code : ExitCode} {outcomes : List (List Sight × ExitCode)} :
      Runs (AtDesk keyring) (runCred action choice) desk t code mid →
      Invocations keyring mid rest outcomes desk' →
      Invocations keyring desk ((action, choice)::rest) ((t.filterMap shown, code)::outcomes) desk'

variable {keyring : Semantics keyringOps Vault}

theorem desk_total (h : ∀ vault op, ∃ ans vault', keyring vault op ans vault') (desk : Desk)
    (op : CredOp) : ∃ ans desk', AtDesk keyring desk op ans desk' := by
  cases op with
  | keyring op =>
    obtain ⟨ans, vault', hvault⟩ := h desk.vault op
    exact ⟨ans, _, vault', hvault, rfl⟩
  | isTerminal => exact ⟨false, desk, rfl⟩
  | promptPassword _ => exact ⟨_, _, Or.inr ⟨rfl, rfl⟩⟩
  | readLine => exact ⟨_, _, Or.inr ⟨rfl, rfl⟩⟩
  | eprintln _ => exact ⟨(), desk, rfl⟩
  | trace _ => exact ⟨(), desk, rfl⟩

theorem invocations_exist (h : ∀ vault op, ∃ ans vault', keyring vault op ans vault')
    (desk : Desk) (commands : List (CredAction × CredentialStoreChoice)) :
    ∃ outcomes desk', Invocations keyring desk commands outcomes desk' := by
  induction commands generalizing desk with
  | nil => exact ⟨[], desk, .nil desk⟩
  | cons command rest ih =>
    obtain ⟨t, code, mid, hr⟩ := runs_total (desk_total h) (runCred command.1 command.2) desk
    obtain ⟨outcomes, desk', hrest⟩ := ih mid
    exact ⟨_, desk', .cons hr hrest⟩

end Desks

end FaninMcp.CredCommands
