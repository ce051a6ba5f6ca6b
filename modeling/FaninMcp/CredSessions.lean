import FaninMcp.CredCommands
import FaninMcp.KeyringRefinement
import FaninMcp.PlaceholderExpansion

/-!
# Sessions of credential commands

Over a keyring that works, the commands act on a map of credentials: a secret that
is typed is stored without its line end, the names listed are those with a secret,
and what is stored is what placeholders resolve to. With the environment as the
store, nothing is written.
-/

set_option autoImplicit false

namespace FaninMcp.CredSessions
open Foundation.RustText Foundation.AsyncPrograms FaninMcp.KeyringModel FaninMcp.KeyringRefinement
  FaninMcp.CredCommands FaninMcp.PlaceholderExpansion

section Effects

structure Books where
  stored : Credentials
  lines : List Text

/-- The next line is the secret with nothing but its line end after it. -/
def Books.Types (books : Books) (secret : Text) : Prop :=
  ∃ ending, books.lines.headD [] = secret ++ ending ∧ (∀ c ∈ ending, c = '\r' ∨ c = '\n') ∧
    ∀ c, secret.getLast? = some c → c ≠ '\r' ∧ c ≠ '\n'

/-- What is seen of a command: the lines it prints, the errors of its reads that
failed, and how it exits. -/
structure Report where
  lines : List Text
  failures : List Text
  code : ExitCode

/-- What a command is for: what is seen of it and what it stores. -/
inductive Effect (books : Books) :
    CredAction × CredentialStoreChoice → Report → Books → Prop
  | unread (server key failure : Text) :
    Effect books (.set server key, .keyring) ⟨[], [failure], .failure⟩ books
  | blank (server key : Text) : books.Types [] →
    Effect books (.set server key, .keyring) ⟨[], [], .failure⟩
      { books with lines := books.lines.tail }
  | stored (server key secret : Text) : books.Types secret → secret ≠ [] →
    Effect books (.set server key, .keyring) ⟨[], [], .success⟩
      ⟨put books.stored server key (some secret), books.lines.tail⟩
  | listed (server : Text) (names : List Text) : names.Pairwise (· ≤ ·) → names.Nodup →
    (∀ key, key ∈ names ↔ (books.stored server key).isSome) →
    Effect books (.list server, .keyring) ⟨names, [], .success⟩ books
  | removed (server key : Text) : Effect books (.rm server key, .keyring) ⟨[], [], .success⟩
      { books with stored := put books.stored server key none }
  | setRefused (server key : Text) :
    Effect books (.set server key, .env) ⟨[], [], .failure⟩ books
  | rmRefused (server key : Text) : Effect books (.rm server key, .env) ⟨[], [], .failure⟩ books
  | noneListed (server : Text) : Effect books (.list server, .env) ⟨[], [], .success⟩ books

inductive Effects :
    Books → List (CredAction × CredentialStoreChoice) → List Report → Books → Prop
  | nil (books : Books) : Effects books [] [] books
  | cons {books mid books' : Books} {command : CredAction × CredentialStoreChoice}
      {rest : List (CredAction × CredentialStoreChoice)} {report : Report}
      {reports : List Report} : Effect books command report mid →
      Effects mid rest reports books' → Effects books (command::rest) (report::reports) books'

def printed : Sight → Option Text
  | .eprintln line => some line
  | _ => none

def failed : Sight → Option Text
  | .promptPassword _ failure | .readLine failure => failure
  | _ => none

def reported (outcome : List Sight × ExitCode) : Report :=
  ⟨outcome.1.filterMap printed, outcome.1.filterMap failed, outcome.2⟩

structure Holds (desk : Desk) (books : Books) : Prop where
  represents : Represents desk.vault books.stored
  lines : desk.lines = books.lines

def ordinary : CredAction → Prop
  | .set _ key | .rm _ key => key ≠ indexUser
  | .list _ => True

end Effects

section Steps
variable {α : Type} {keyring : Semantics keyringOps Vault} {desk desk' : Desk}
  {t : List (Exchange credOps)}

/-- The lines printed and the errors of reads in what was exchanged. -/
structure Seen (lines failures : List Text) (t : List (Exchange credOps)) : Prop where
  lines : (t.filterMap shown).filterMap printed = lines
  failures : (t.filterMap shown).filterMap failed = failures

theorem seen_append {a b c d : List Text} {t u : List (Exchange credOps)} (ht : Seen a b t)
    (hu : Seen c d u) : Seen (a ++ c) (b ++ d) (t ++ u) := by
  constructor
  · rw [List.filterMap_append, List.filterMap_append, ht.lines, hu.lines]
  · rw [List.filterMap_append, List.filterMap_append, ht.failures, hu.failures]

theorem seen_reported {lines failures : List Text} {code : ExitCode} (h : Seen lines failures t) :
    reported (t.filterMap shown, code) = ⟨lines, failures, code⟩ := by
  rw [reported, h.lines, h.failures]

theorem trimLineEnd_types (books : Books) :
    books.Types (trimLineEnd (books.lines.headD [])) := by
  refine ⟨(books.lines.headD []).rtakeWhile fun c => c = '\r' ∨ c = '\n',
    (List.rdropWhile_append_rtakeWhile ..).symm, fun c hc => ?_, fun c hc => ?_⟩
  · simpa using List.mem_rtakeWhile_imp hc
  · have hne : trimLineEnd (books.lines.headD []) ≠ [] := by
      rintro hnil
      rw [hnil] at hc
      cases hc
    rw [List.getLast?_eq_some_getLast hne, Option.some.injEq] at hc
    have hlast := List.rdropWhile_last_not (fun c => decide (c = '\r' ∨ c = '\n')) _ hne
    rw [decide_eq_true_eq, not_or] at hlast
    rw [← hc]
    exact hlast

theorem runs_onKeyring {p : KeyringProg α} {a : α}
    (h : Runs (AtDesk keyring) (onKeyring p) desk t a desk') :
    ∃ u vault', Runs keyring p desk.vault u a vault' ∧
      desk' = { desk with vault := vault' } ∧ Seen [] [] t := by
  induction p generalizing desk t with
  | done b =>
    obtain ⟨rfl, rfl, rfl⟩ := runs_done.mp h
    exact ⟨[], desk'.vault, .done _ _, rfl, rfl, rfl⟩
  | act op next ih =>
    obtain ⟨ans, mid, rest, rfl, ⟨vault, hvault, rfl⟩, hrest⟩ := runs_act.mp h
    obtain ⟨u, vault', hruns, rfl, hquiet⟩ := ih ans hrest
    exact ⟨_, vault', .act hvault hruns, rfl, hquiet.lines, hquiet.failures⟩

theorem runs_tracing {diagnostic : Diagnostic} {code code' : ExitCode}
    (h : Runs (AtDesk keyring) (asking (.trace diagnostic) >>= fun _ => Prog.done code) desk t code'
      desk') : code' = code ∧ desk' = desk ∧ Seen [] [] t := by
  obtain ⟨ans, mid, rest, rfl, rfl, hrest⟩ := runs_act.mp h
  obtain ⟨rfl, rfl, rfl⟩ := runs_done.mp hrest
  exact ⟨rfl, rfl, rfl, rfl⟩

theorem runs_printNames {names : List Text} {out : Unit}
    (h : Runs (AtDesk keyring) (printNames names) desk t out desk') :
    desk' = desk ∧ Seen names [] t := by
  induction names generalizing t with
  | nil =>
    obtain ⟨rfl, rfl, rfl⟩ := runs_done.mp h
    exact ⟨rfl, rfl, rfl⟩
  | cons n names ih =>
    obtain ⟨ans, mid, rest, rfl, rfl, hrest⟩ := runs_act.mp h
    obtain ⟨rfl, hnames⟩ := ih hrest
    exact ⟨rfl, congrArg (n :: ·) hnames.lines, hnames.failures⟩

/-- A secret that is read is the next line without its line end; a read that
fails is seen to. -/
theorem runs_promptForSecret {prompt : Text} {out : Except Text Text}
    (h : Runs (AtDesk keyring) (promptForSecret prompt) desk t out desk') :
    (∃ e failure, out = .error e ∧ desk' = desk ∧ Seen [] [failure] t) ∨
      out = .ok (trimLineEnd (desk.lines.headD [])) ∧
        desk' = { desk with lines := desk.lines.tail } ∧ Seen [] [] t := by
  obtain ⟨terminal, mid, rest, rfl, rfl, hrest⟩ := runs_act.mp h
  cases terminal with
  | true =>
    obtain ⟨ans, mid, rest, rfl, hread, hafter⟩ := runs_act.mp hrest
    rcases hread with ⟨⟨e, rfl⟩, rfl⟩ | ⟨rfl, rfl⟩
    · obtain ⟨rfl, rfl, rfl⟩ := runs_done.mp hafter
      exact Or.inl ⟨_, e, rfl, rfl, rfl, rfl⟩
    · obtain ⟨rfl, rfl, rfl⟩ := runs_done.mp hafter
      exact Or.inr ⟨rfl, rfl, rfl, rfl⟩
  | false =>
    obtain ⟨ans, mid, rest, rfl, hread, hafter⟩ := runs_act.mp hrest
    rcases hread with ⟨⟨e, rfl⟩, rfl⟩ | ⟨rfl, rfl⟩
    · obtain ⟨rfl, rfl, rfl⟩ := runs_done.mp hafter
      exact Or.inl ⟨_, e, rfl, rfl, rfl, rfl⟩
    · obtain ⟨rfl, rfl, rfl⟩ := runs_done.mp hafter
      exact Or.inr ⟨rfl, rfl, rfl, rfl⟩

end Steps

section Commands
variable {desk desk' : Desk} {books : Books} {t : List (Exchange credOps)} {code : ExitCode}
  {server key : Text}

theorem represents_store {vault vault' : Vault} {m : Credentials} (h : Represents vault m)
    (hk : key ≠ indexUser) {value : Text} {u : List (Exchange keyringOps)} {out : Except Text Unit}
    (hr : Runs Faithful (KeyringModel.set server key value) vault u out vault') :
    Represents vault' (put m server key (some value)) :=
  @represents_step _ _ _ h (.set server key value) hk _ _ hr

theorem represents_remove {vault vault' : Vault} {m : Credentials} (h : Represents vault m)
    (hk : key ≠ indexUser) {u : List (Exchange keyringOps)} {out : Except Text Unit}
    (hr : Runs Faithful (KeyringModel.delete server key) vault u out vault') :
    Represents vault' (put m server key none) :=
  @represents_step _ _ _ h (.delete server key) hk _ _ hr

theorem credSet_cases
    (hr : Runs (AtDesk Faithful) (credSet server key .keyring) desk t code desk') :
    (∃ failure, Seen [] [failure] t ∧ code = .failure ∧ desk' = desk) ∨
    Seen [] [] t ∧ (trimLineEnd (desk.lines.headD []) = [] ∧ code = .failure ∧
        desk' = { desk with lines := desk.lines.tail } ∨
      trimLineEnd (desk.lines.headD []) ≠ [] ∧ code = .success ∧
        ∃ u vault, Runs Faithful
            (KeyringModel.set server key (trimLineEnd (desk.lines.headD []))) desk.vault u
            (.ok ()) vault ∧
          desk' = ⟨vault, desk.lines.tail⟩) := by
  obtain ⟨t₁, t₂, typed, mid, rfl, hprompt, hafter⟩ := runs_bind.mp hr
  obtain ⟨e, failure, rfl, rfl, hread⟩ | ⟨rfl, rfl, hread⟩ := runs_promptForSecret hprompt
  · obtain ⟨rfl, rfl, hquiet⟩ := runs_tracing hafter
    exact Or.inl ⟨failure, seen_append hread hquiet, rfl, rfl⟩
  · right
    generalize trimLineEnd (desk.lines.headD []) = secret at hafter
    cases secret with
    | nil =>
      obtain ⟨rfl, rfl, hquiet⟩ := runs_tracing hafter
      exact ⟨seen_append hread hquiet, Or.inl ⟨rfl, rfl, rfl⟩⟩
    | cons c cs =>
      obtain ⟨t₃, t₄, out, mid, rfl, hset, hend⟩ := runs_bind.mp hafter
      obtain ⟨u, vault, hkeyring, rfl, hstored⟩ := runs_onKeyring hset
      obtain ⟨rfl, _⟩ := set_faithful hkeyring
      obtain ⟨rfl, rfl, hquiet⟩ := runs_tracing hend
      exact ⟨seen_append hread (seen_append hstored hquiet),
        Or.inr ⟨by simp, rfl, u, vault, hkeyring, rfl⟩⟩

theorem credSet_effect (h : Holds desk books) (hk : key ≠ indexUser)
    {choice : CredentialStoreChoice}
    (hr : Runs (AtDesk Faithful) (credSet server key choice) desk t code desk') :
    ∃ books', Effect books (.set server key, choice) (reported (t.filterMap shown, code)) books' ∧
      Holds desk' books' := by
  cases choice with
  | env =>
    obtain ⟨rfl, rfl, hquiet⟩ := runs_tracing hr
    exact ⟨books, seen_reported hquiet ▸ .setRefused server key, h⟩
  | keyring =>
    have htyped := trimLineEnd_types books
    rw [← h.lines] at htyped
    have hlines : desk.lines.tail = books.lines.tail := by rw [h.lines]
    obtain ⟨failure, hseen, rfl, rfl⟩ | ⟨hseen, ⟨hempty, rfl, rfl⟩ |
      ⟨hsecret, rfl, u, vault, hset, rfl⟩⟩ := credSet_cases hr
    · rw [seen_reported hseen]
      exact ⟨books, .unread server key failure, h⟩
    · rw [seen_reported hseen]
      rw [hempty] at htyped
      exact ⟨_, .blank server key htyped, h.represents, hlines⟩
    · rw [seen_reported hseen]
      exact ⟨_, .stored server key _ htyped hsecret, represents_store h.represents hk hset, hlines⟩

theorem credRm_effect (h : Holds desk books) (hk : key ≠ indexUser)
    {choice : CredentialStoreChoice}
    (hr : Runs (AtDesk Faithful) (credRm server key choice) desk t code desk') :
    ∃ books', Effect books (.rm server key, choice) (reported (t.filterMap shown, code)) books' ∧
      Holds desk' books' := by
  cases choice with
  | env =>
    obtain ⟨rfl, rfl, hquiet⟩ := runs_tracing hr
    exact ⟨books, seen_reported hquiet ▸ .rmRefused server key, h⟩
  | keyring =>
    obtain ⟨t₁, t₂, out, mid, rfl, hdelete, hend⟩ := runs_bind.mp hr
    obtain ⟨u, vault, hkeyring, rfl, hsilent⟩ := runs_onKeyring hdelete
    obtain ⟨rfl, _⟩ := delete_faithful hkeyring
    obtain ⟨rfl, rfl, hquiet⟩ := runs_tracing hend
    have hstep := represents_remove h.represents hk hkeyring
    rw [seen_reported (seen_append hsilent hquiet)]
    exact ⟨_, .removed server key, hstep, h.lines⟩

theorem credList_printed
    (hr : Runs (AtDesk Faithful) (credList server .keyring) desk t code desk') :
    Seen ((listed desk.vault server).sort (· ≤ ·)) [] t ∧ code = .success ∧ desk' = desk := by
  obtain ⟨t₁, t₂, out, mid, rfl, hlist, hafter⟩ := runs_bind.mp hr
  obtain ⟨u, vault, hkeyring, rfl, hsilent⟩ := runs_onKeyring hlist
  obtain ⟨rfl, rfl⟩ := listNames_faithful hkeyring
  obtain ⟨t₃, t₄, _, mid, rfl, hprint, hend⟩ := runs_bind.mp hafter
  obtain ⟨rfl, hprinted⟩ := runs_printNames hprint
  obtain ⟨rfl, rfl, rfl⟩ := runs_done.mp hend
  rw [List.append_nil]
  exact ⟨seen_append hsilent hprinted, rfl, rfl⟩

theorem credList_effect (h : Holds desk books) {choice : CredentialStoreChoice}
    (hr : Runs (AtDesk Faithful) (credList server choice) desk t code desk') :
    ∃ books', Effect books (.list server, choice) (reported (t.filterMap shown, code)) books' ∧
      Holds desk' books' := by
  cases choice with
  | env =>
    obtain ⟨rfl, rfl, rfl⟩ := runs_done.mp hr
    exact ⟨books, .noneListed server, h⟩
  | keyring =>
    obtain ⟨hprinted, rfl, rfl⟩ := credList_printed hr
    rw [seen_reported hprinted]
    refine ⟨books, ?_, h⟩
    refine .listed server _ (Finset.pairwise_sort _ _) (Finset.sort_nodup _ _) fun key => ?_
    rw [Finset.mem_sort, h.represents.names]

theorem runCred_effect (h : Holds desk books) {action : CredAction} (hk : ordinary action)
    {choice : CredentialStoreChoice}
    (hr : Runs (AtDesk Faithful) (runCred action choice) desk t code desk') :
    ∃ books', Effect books (action, choice) (reported (t.filterMap shown, code)) books' ∧
      Holds desk' books' := by
  cases action with
  | set server key => exact credSet_effect h hk hr
  | list server => exact credList_effect h hr
  | rm server key => exact credRm_effect h hk hr

def storeOf (vault : Vault) (server key : Text) : Except Text (Option Text) :=
  .ok (stored vault server key)

/-- Whatever commands run, of either store: they print, exit and store as their
effects say, and what is stored then, and only that, takes precedence over the
environment when a placeholder is resolved. -/
theorem commands_refine_books {commands : List (CredAction × CredentialStoreChoice)}
    {outcomes : List (List Sight × ExitCode)} (hk : ∀ command ∈ commands, ordinary command.1)
    (hrun : Invocations Faithful desk commands outcomes desk') (h : Holds desk books) :
    ∃ books', Effects books commands (outcomes.map reported) books' ∧ Holds desk' books' ∧
      ∀ env server key, key ≠ indexUser → resolution (storeOf desk'.vault) env server key =
        (books'.stored server key).or (env key) := by
  suffices heffects : ∃ books', Effects books commands (outcomes.map reported) books' ∧
      Holds desk' books' by
    obtain ⟨books', heffects, hholds⟩ := heffects
    refine ⟨books', heffects, hholds, fun env server key hindex => ?_⟩
    rw [resolution, storeOf, hholds.represents.values server key hindex]
    cases books'.stored server key <;> rfl
  induction hrun generalizing books with
  | nil desk => exact ⟨books, .nil books, h⟩
  | cons hr _ ih =>
    obtain ⟨hfirst, hrest⟩ := List.forall_mem_cons.mp hk
    obtain ⟨mid, heffect, hmid⟩ := runCred_effect h hfirst hr
    obtain ⟨books', heffects, hend⟩ := ih hrest hmid
    exact ⟨books', .cons heffect heffects, hend⟩

/-- A secret typed with its line end, listed, and refused by the other store. -/
def tokenCommands : List (CredAction × CredentialStoreChoice) :=
  [(.set "db".toList "TOKEN".toList, .keyring), (.list "db".toList, .keyring),
    (.rm "db".toList "TOKEN".toList, .env)]

theorem commands_refine_books_token : ∃ outcomes desk' books',
    Invocations Faithful ⟨fun _ _ => none, ["s3cret\r\n".toList]⟩ tokenCommands outcomes desk' ∧
    Effects ⟨fun _ _ => none, ["s3cret\r\n".toList]⟩ tokenCommands (outcomes.map reported) books' ∧
    ∀ env, resolution (storeOf desk'.vault) env "db".toList "TOKEN".toList =
      (books'.stored "db".toList "TOKEN".toList).or (env "TOKEN".toList) := by
  obtain ⟨outcomes, desk', hrun⟩ := invocations_exist faithful_total
    ⟨fun _ _ => none, ["s3cret\r\n".toList]⟩ tokenCommands
  have hk : ∀ command ∈ tokenCommands, ordinary command.1 := by
    have hkey : "TOKEN".toList ≠ indexUser := by decide
    simpa [tokenCommands, ordinary] using hkey
  have hempty : Holds ⟨fun _ _ => none, ["s3cret\r\n".toList]⟩
      ⟨fun _ _ => none, ["s3cret\r\n".toList]⟩ := ⟨represents_empty, rfl⟩
  obtain ⟨books', heffects, _, hresolved⟩ := commands_refine_books hk hrun hempty
  exact ⟨outcomes, desk', books', hrun, heffects,
    fun env => hresolved env "db".toList "TOKEN".toList (by decide)⟩

/-- A secret that is stored under the reserved name, and is a list of names itself,
is printed by the next listing. -/
theorem reserved_key_printed {mid : Desk} {t' : List (Exchange credOps)} {names : List Text}
    (htyped : trimLineEnd (desk.lines.headD []) = encodeNames names)
    (hset : Runs (AtDesk Faithful) (credSet server indexUser .keyring) desk t .success mid)
    (hlist : Runs (AtDesk Faithful) (credList server .keyring) mid t' code desk') :
    ∀ name ∈ names, name ∈ (reported (t'.filterMap shown, code)).lines := by
  obtain ⟨_, _, hcode, _⟩ | ⟨_, ⟨_, hcode, _⟩ | ⟨_, _, u, vault, hstore, rfl⟩⟩ := credSet_cases hset
  · cases hcode
  · cases hcode
  · rw [htyped] at hstore
    obtain ⟨_, order, horder, rfl⟩ := set_faithful hstore
    obtain ⟨hprinted, _, _⟩ := credList_printed hlist
    intro name hname
    rw [seen_reported hprinted, Finset.mem_sort, listed_index, horder, listed_index]
    exact Finset.mem_insert_of_mem (List.mem_toFinset.mpr hname)

end Commands

end FaninMcp.CredSessions
