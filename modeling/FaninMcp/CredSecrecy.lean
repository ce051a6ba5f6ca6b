import FaninMcp.CredCommands
import FaninMcp.KeyringRefinement
import FaninMcp.Foundation.RelatedRuns

/-!
# What the credential commands show

Whatever is typed as a secret and whatever is stored already, a command shows the
same lines, diagnostics and exit code, as long as the secret is as empty as before.
Only an entry under the reserved name makes stored text into names.
-/

set_option autoImplicit false

namespace FaninMcp.CredSecrecy
open Foundation.RustText Foundation.AsyncPrograms FaninMcp.KeyringModel FaninMcp.KeyringRefinement
  FaninMcp.CredCommands

section Likeness

/-- Both lines leave something when their line ends are taken away, or neither does. -/
def SameBlank (line line' : Text) : Prop := trimLineEnd line = [] ↔ trimLineEnd line' = []

def LikeRead {ε : Type} (rel : Text → Text → Prop) : Except ε Text → Except ε Text → Prop
  | .ok text, .ok text' => rel text text'
  | .error e, .error e' => e' = e
  | _, _ => False

theorem likeRead_cases {ε : Type} {rel : Text → Text → Prop} {a b : Except ε Text}
    (h : LikeRead rel a b) : (∃ text text', a = .ok text ∧ b = .ok text' ∧ rel text text') ∨
      ∃ e, a = .error e ∧ b = .error e := by
  cases a with
  | ok text =>
    cases b with
    | ok text' => exact Or.inl ⟨text, text', rfl, rfl, h⟩
    | error _ => exact h.elim
  | error e =>
    cases b with
    | ok _ => exact h.elim
    | error e' => exact Or.inr ⟨e, rfl, congrArg Except.error h⟩

/-- A password is seen only as being there, but for the one that keeps the names. -/
def LikePassword (user : Text) : Except KeyringError Text → Except KeyringError Text → Prop :=
  LikeRead fun password password' => user = indexUser → password' = password

inductive LikeOp : CredOp → CredOp → Prop
  | same (op : CredOp) : LikeOp op op
  | stored (service user password password' : Text) : user ≠ indexUser →
    LikeOp (.keyring (.setPassword service user password))
      (.keyring (.setPassword service user password'))

def likeAns : (op op' : CredOp) → CredAns op → CredAns op' → Prop
  | .keyring (.entry _ _), .keyring (.entry _ _), ans, ans' => ans' = ans
  | .keyring (.getPassword _ user), .keyring (.getPassword _ _), ans, ans' =>
    LikePassword user ans ans'
  | .keyring (.setPassword _ _ _), .keyring (.setPassword _ _ _), ans, ans' => ans' = ans
  | .keyring (.deleteCredential _ _), .keyring (.deleteCredential _ _), ans, ans' => ans' = ans
  | .keyring (.iterate _), .keyring (.iterate _), ans, ans' => ans'.1 = ans.1
  | .isTerminal, .isTerminal, ans, ans' => ans' = ans
  | .promptPassword _, .promptPassword _, ans, ans' => LikeRead SameBlank ans ans'
  | .readLine, .readLine, ans, ans' => LikeRead SameBlank ans ans'
  | .eprintln _, .eprintln _, _, _ => True
  | .trace _, .trace _, _, _ => True
  | _, _, _, _ => False

def asideSecrets : Likeness credOps := ⟨LikeOp, likeAns⟩

structure SameEntries (vault vault' : Vault) : Prop where
  present : ∀ s u, (vault s u).isSome = (vault' s u).isSome
  names : ∀ s, vault s indexUser = vault' s indexUser

structure SameDesk (desk desk' : Desk) : Prop where
  entries : SameEntries desk.vault desk'.vault
  lines : List.Forall₂ SameBlank desk.lines desk'.lines

end Likeness

section States
variable {vault vault' : Vault}

theorem sameEntries_put (h : SameEntries vault vault') (s u : Text) {p p' : Option Text}
    (hpresent : p.isSome = p'.isSome) (hnames : u = indexUser → p = p') :
    SameEntries (put vault s u p) (put vault' s u p') := by
  constructor
  · intro s' u'
    by_cases hs : s' = s
    · subst hs
      by_cases hu : u' = u
      · subst hu
        rw [put_same, put_same, hpresent]
      · rw [put_user _ _ hu, put_user _ _ hu, h.present]
    · rw [put_service _ hs, put_service _ hs, h.present]
  · intro s'
    by_cases hs : s' = s
    · subst hs
      by_cases hu : indexUser = u
      · subst hu
        rw [put_same, put_same, hnames rfl]
      · rw [put_user _ _ hu, put_user _ _ hu, h.names]
    · rw [put_service _ hs, put_service _ hs, h.names]

theorem deleted_alike (h : SameEntries vault vault') (s u : Text) :
    (vault' s u).elim (.error .noEntry) (fun _ => .ok ()) =
      ((vault s u).elim (.error .noEntry) fun _ => .ok () : Except KeyringError Unit) := by
  have hpresent := h.present s u
  cases hv : vault s u <;> cases hv' : vault' s u <;> simp_all

theorem read_alike (h : SameEntries vault vault') (s u : Text) :
    LikePassword u ((vault s u).elim (.error .noEntry) .ok)
      ((vault' s u).elim (.error .noEntry) .ok) := by
  have hpresent := h.present s u
  cases hv : vault s u with
  | none =>
    cases hv' : vault' s u with
    | none => exact rfl
    | some _ => simp [hv, hv'] at hpresent
  | some p =>
    cases hv' : vault' s u with
    | none => simp [hv, hv'] at hpresent
    | some p' =>
      rintro rfl
      have hnames := h.names s
      rw [hv, hv'] at hnames
      exact (Option.some.inj hnames).symm

theorem likeAns_self (op : KeyringOp) (ans : KeyringAns op) :
    likeAns (.keyring op) (.keyring op) ans ans := by
  cases op with
  | entry _ _ | setPassword _ _ _ | deleteCredential _ _ | iterate _ => exact rfl
  | getPassword _ _ =>
    cases ans with
    | error _ => exact rfl
    | ok _ => exact fun _ => rfl

theorem keyring_alike (h : SameEntries vault vault') {op op' : KeyringOp} {ans : KeyringAns op}
    {next : Vault} (hops : LikeOp (.keyring op) (.keyring op')) (hr : Fallible vault op ans next) :
    ∃ ans' next', Fallible vault' op' ans' next' ∧
      likeAns (.keyring op) (.keyring op') ans ans' ∧ SameEntries next next' := by
  cases hops with
  | stored s u p p' hu =>
    rcases hr with ⟨rfl, rfl⟩ | ⟨hfails, rfl⟩
    · exact ⟨.ok (), _, Or.inl ⟨rfl, rfl⟩, rfl,
        sameEntries_put h s u rfl fun hindex => absurd hindex hu⟩
    · exact ⟨ans, vault', Or.inr ⟨hfails, rfl⟩, rfl, h⟩
  | same =>
    rcases hr with hworks | ⟨hfails, rfl⟩
    · cases op with
      | entry s u =>
        obtain ⟨rfl, rfl⟩ := hworks
        exact ⟨.ok (), vault', Or.inl ⟨rfl, rfl⟩, rfl, h⟩
      | getPassword s u =>
        obtain ⟨rfl, rfl⟩ := hworks
        exact ⟨_, vault', Or.inl ⟨rfl, rfl⟩, read_alike h s u, h⟩
      | setPassword s u p =>
        obtain ⟨rfl, rfl⟩ := hworks
        exact ⟨.ok (), _, Or.inl ⟨rfl, rfl⟩, rfl, sameEntries_put h s u rfl fun _ => rfl⟩
      | deleteCredential s u =>
        obtain ⟨rfl, rfl⟩ := hworks
        exact ⟨_, _, Or.inl ⟨rfl, rfl⟩, deleted_alike h s u,
          sameEntries_put h s u rfl fun _ => rfl⟩
      | iterate keys =>
        obtain rfl := hworks
        exact ⟨ans, vault', Or.inl rfl, rfl, h⟩
    · exact ⟨ans, vault', Or.inr ⟨hfails, rfl⟩, likeAns_self op ans, h⟩

theorem sameBlank_head {lines lines' : List Text} (h : List.Forall₂ SameBlank lines lines') :
    SameBlank (lines.headD []) (lines'.headD []) := by
  cases h with
  | nil => exact Iff.rfl
  | cons hline _ => exact hline

theorem sameBlank_tail {lines lines' : List Text} (h : List.Forall₂ SameBlank lines lines') :
    List.Forall₂ SameBlank lines.tail lines'.tail := by
  cases h with
  | nil => exact .nil
  | cons _ hrest => exact hrest

theorem secret_alike {desk desk' next : Desk} (h : SameDesk desk desk') {ans : Except Text Text}
    (hr : ReadsSecret desk ans next) :
    ∃ ans' next', ReadsSecret desk' ans' next' ∧ LikeRead SameBlank ans ans' ∧ SameDesk next next' := by
  rcases hr with ⟨⟨e, rfl⟩, rfl⟩ | ⟨rfl, rfl⟩
  · exact ⟨.error e, desk', Or.inl ⟨⟨e, rfl⟩, rfl⟩, rfl, h⟩
  · exact ⟨_, _, Or.inr ⟨rfl, rfl⟩, sameBlank_head h.lines, h.entries, sameBlank_tail h.lines⟩

theorem desk_alike : AnswersAlike asideSecrets (AtDesk Fallible) (AtDesk Fallible) SameDesk := by
  intro desk next desk' op op' ans h hops hr
  cases op with
  | keyring op =>
    obtain ⟨vault, hvault, rfl⟩ := hr
    have hother : ∃ other, op' = .keyring other := by
      cases hops with
      | same => exact ⟨op, rfl⟩
      | stored s u p p' hu => exact ⟨_, rfl⟩
    obtain ⟨other, rfl⟩ := hother
    obtain ⟨ans', vault', hvault', hlike, hsame⟩ := keyring_alike h.entries hops hvault
    exact ⟨ans', _, ⟨vault', hvault', rfl⟩, hlike, hsame, h.lines⟩
  | isTerminal =>
    cases hops
    obtain rfl := hr
    exact ⟨ans, desk', rfl, rfl, h⟩
  | promptPassword prompt =>
    cases hops
    exact secret_alike h hr
  | readLine =>
    cases hops
    exact secret_alike h hr
  | eprintln line =>
    cases hops
    obtain rfl := hr
    exact ⟨ans, desk', rfl, trivial, h⟩
  | trace diagnostic =>
    cases hops
    obtain rfl := hr
    exact ⟨ans, desk', rfl, trivial, h⟩

end States

section Programs
variable {α : Type}

def ReadsNames : KeyringOp → Prop
  | .getPassword _ user => user = indexUser
  | _ => True

theorem plain_keyring {op : KeyringOp} (h : ReadsNames op) :
    asideSecrets.Plain (.keyring op) := by
  refine ⟨.same _, fun ans ans' hans => ?_⟩
  cases op with
  | entry _ _ | setPassword _ _ _ | deleteCredential _ _ => exact hans
  | iterate _ => exact Subtype.ext hans
  | getPassword _ user =>
    rcases likeRead_cases hans with ⟨p, p', rfl, rfl, hp⟩ | ⟨e, rfl, rfl⟩
    · exact congrArg Except.ok (hp h)
    · rfl

theorem onKeyring_all {p : KeyringProg α} (h : p.All ReadsNames fun _ => True) :
    (onKeyring p).All asideSecrets.Plain fun _ => True := by
  induction p with
  | done a => exact trivial
  | act op next ih => exact ⟨plain_keyring h.1, fun ans => ih ans (h.2 ans)⟩

theorem entry_reads (server key : Text) :
    (entry server key).All ReadsNames fun _ => True := by
  refine ⟨trivial, fun ans => ?_⟩
  cases ans <;> exact trivial

theorem loadIndex_reads (server : Text) :
    (loadIndex server).All ReadsNames fun _ => True := by
  refine ⟨trivial, fun ans => ?_⟩
  cases ans with
  | error _ => exact trivial
  | ok _ =>
    refine ⟨rfl, fun ans => ?_⟩
    cases ans with
    | error _ => exact trivial
    | ok text =>
      dsimp only [Prog.bind]
      split <;> exact trivial

theorem saveIndex_reads (server : Text) (keys : Finset Text) :
    (saveIndex server keys).All ReadsNames fun _ => True := by
  refine ⟨trivial, fun ans => ?_⟩
  cases ans with
  | error _ => exact trivial
  | ok _ =>
    refine ⟨trivial, fun order => ⟨trivial, fun ans => ?_⟩⟩
    cases ans <;> exact trivial

theorem delete_reads (server key : Text) :
    (KeyringModel.delete server key).All ReadsNames fun _ => True := by
  have hdrop : (dropEntry server key).All ReadsNames fun _ => True := by
    refine all_bind (all_mono (fun _ h => h) (fun out _ => ?_) (entry_reads server key))
    cases out with
    | error _ => exact trivial
    | ok _ => exact ⟨trivial, fun _ => trivial⟩
  refine all_bind (all_mono (fun _ h => h) (fun _ _ => ?_) hdrop)
  refine all_bind (all_mono (fun _ h => h) (fun idx _ => ?_) (loadIndex_reads server))
  exact all_bind (all_mono (fun _ h => h) (fun _ _ => trivial) (saveIndex_reads server _))

theorem listNames_reads (server : Text) : (listNames server).All ReadsNames fun _ => True :=
  all_bind (all_mono (fun _ h => h) (fun _ _ => trivial) (loadIndex_reads server))

theorem insertName_reads (server key : Text) :
    (loadIndex server >>= fun idx => saveIndex server (insert key idx)).All ReadsNames
      fun _ => True :=
  all_bind (all_mono (fun _ h => h) (fun _ _ => saveIndex_reads server _) (loadIndex_reads server))

theorem set_matches {server key : Text} (hk : key ≠ indexUser) (value value' : Text) :
    Matches asideSecrets Eq (onKeyring (KeyringModel.set server key value))
      (onKeyring (KeyringModel.set server key value')) := by
  refine .act (.same _) fun ans ans' hans => ?_
  obtain rfl : ans' = ans := hans
  cases ans' with
  | error _ => exact .done rfl
  | ok _ =>
    refine .act (.stored _ _ _ _ hk) fun ans ans' hans => ?_
    obtain rfl : ans' = ans := hans
    cases ans' with
    | error _ => exact .done rfl
    | ok _ => exact matches_self (onKeyring_all (insertName_reads server key))

theorem tracing_all (diagnostic : Diagnostic) {code : ExitCode} :
    (asking (.trace diagnostic) >>= fun _ => Prog.done code).All asideSecrets.Plain
      fun _ => True :=
  ⟨⟨.same _, fun _ _ _ => rfl⟩, fun _ => trivial⟩

theorem printNames_all (names : List Text) :
    (printNames names).All asideSecrets.Plain fun _ => True := by
  induction names with
  | nil => exact trivial
  | cons n names ih => exact ⟨⟨.same _, fun _ _ _ => rfl⟩, fun _ => ih⟩

theorem promptForSecret_matches (prompt : Text) :
    Matches asideSecrets (LikeRead fun secret secret' => secret = [] ↔ secret' = [])
      (promptForSecret prompt) (promptForSecret prompt) := by
  refine .act (.same _) fun ans ans' hans => ?_
  obtain rfl : ans' = ans := hans
  cases ans' with
  | true =>
    refine .act (.same _) fun ans ans' hans => ?_
    rcases likeRead_cases hans with ⟨line, line', rfl, rfl, hblank⟩ | ⟨e, rfl, rfl⟩
    · exact .done hblank
    · exact .done rfl
  | false =>
    refine .act (.same _) fun ans ans' hans => ?_
    rcases likeRead_cases hans with ⟨line, line', rfl, rfl, hblank⟩ | ⟨e, rfl, rfl⟩
    · exact .done hblank
    · exact .done rfl

theorem credSet_matches {server key : Text} (hk : key ≠ indexUser)
    (choice : CredentialStoreChoice) :
    Matches asideSecrets Eq (credSet server key choice) (credSet server key choice) := by
  cases choice with
  | env => exact matches_self (tracing_all _)
  | keyring =>
    refine matches_bind (promptForSecret_matches _) fun typed typed' htyped => ?_
    rcases likeRead_cases htyped with ⟨secret, secret', rfl, rfl, hempty⟩ | ⟨e, rfl, rfl⟩
    · cases secret with
      | nil =>
        obtain rfl := hempty.mp rfl
        exact matches_self (tracing_all _)
      | cons c cs =>
        cases secret' with
        | nil => exact absurd (hempty.mpr rfl) (by simp)
        | cons c' cs' =>
          refine matches_bind (set_matches hk _ _) fun out out' hout => ?_
          obtain rfl := hout
          cases out with
          | error e => exact matches_self (tracing_all _)
          | ok _ => exact matches_self (tracing_all _)
    · exact matches_self (tracing_all _)

theorem credList_all (server : Text) (choice : CredentialStoreChoice) :
    (credList server choice).All asideSecrets.Plain fun _ => True := by
  have hnames : (onKeyring ((buildStore choice).listNames server)).All asideSecrets.Plain
      fun _ => True := by
    cases choice with
    | keyring => exact onKeyring_all (listNames_reads server)
    | env => exact trivial
  refine all_bind (all_mono (fun _ h => h) (fun out _ => ?_) hnames)
  cases out with
  | error e => exact tracing_all _
  | ok names => exact all_bind (all_mono (fun _ h => h) (fun _ _ => trivial) (printNames_all names))

theorem credRm_all (server key : Text) (choice : CredentialStoreChoice) :
    (credRm server key choice).All asideSecrets.Plain fun _ => True := by
  cases choice with
  | env => exact tracing_all _
  | keyring =>
    refine all_bind (all_mono (fun _ h => h) (fun out _ => ?_)
      (onKeyring_all (delete_reads server key)))
    cases out with
    | error e => exact tracing_all _
    | ok _ => exact tracing_all _

def OrdinaryKeys (commands : List (CredAction × CredentialStoreChoice)) : Prop :=
  ∀ command ∈ commands, ∀ server key, command.1 = .set server key → key ≠ indexUser

theorem runCred_matches {action : CredAction} (choice : CredentialStoreChoice)
    (hk : ∀ server key, action = .set server key → key ≠ indexUser) :
    Matches asideSecrets Eq (runCred action choice) (runCred action choice) := by
  cases action with
  | set server key => exact credSet_matches (hk server key rfl) choice
  | list server => exact matches_self (credList_all server choice)
  | rm server key => exact matches_self (credRm_all server key choice)

theorem failure_alike {rel : Text → Text → Prop} {a b : Except Text Text} (h : LikeRead rel a b) :
    failureOf a = failureOf b := by
  obtain ⟨_, _, rfl, rfl, _⟩ | ⟨_, rfl, rfl⟩ := likeRead_cases h <;> rfl

theorem shown_alike {x y : Exchange credOps} (h : asideSecrets.exchanges x y) :
    shown x = shown y := by
  obtain ⟨op, ans⟩ := x
  obtain ⟨op', ans'⟩ := y
  obtain ⟨hops, hans⟩ := h
  cases hops with
  | same =>
    cases op with
    | promptPassword prompt =>
      exact congrArg (fun e => some (Sight.promptPassword prompt e)) (failure_alike hans)
    | readLine => exact congrArg (fun e => some (Sight.readLine e)) (failure_alike hans)
    | keyring _ | isTerminal | eprintln _ | trace _ => rfl
  | stored _ _ _ _ _ => rfl

theorem shown_trace {t t' : List (Exchange credOps)}
    (h : List.Forall₂ asideSecrets.exchanges t t') : t.filterMap shown = t'.filterMap shown := by
  induction h with
  | nil => rfl
  | cons hxy _ ih => rw [List.filterMap_cons, List.filterMap_cons, shown_alike hxy, ih]

/-- Over any keyring, also one that fails now and then: what commands show and how
they exit does not depend on the secrets typed, nor on those stored before. -/
theorem commands_show_no_secret {commands : List (CredAction × CredentialStoreChoice)}
    {desk desk' other : Desk} {outcomes : List (List Sight × ExitCode)}
    (hk : OrdinaryKeys commands) (hsame : SameDesk desk other)
    (h : Invocations Fallible desk commands outcomes desk') :
    ∃ other', Invocations Fallible other commands outcomes other' ∧ SameDesk desk' other' := by
  induction h generalizing other with
  | nil desk => exact ⟨other, .nil other, hsame⟩
  | @cons desk mid desk' action choice rest t code outcomes hr _ ih =>
    obtain ⟨hfirst, hrest⟩ := List.forall_mem_cons.mp hk
    obtain ⟨t', code', mid', hr', htrace, rfl, hmid⟩ :=
      matches_runs desk_alike (runCred_matches choice hfirst) hsame hr
    obtain ⟨other', hothers, hend⟩ := ih hrest hmid
    refine ⟨other', ?_, hend⟩
    rw [shown_trace htrace]
    exact .cons hr' hothers

def storeAndList (key : Text) : List (CredAction × CredentialStoreChoice) :=
  [(.set "db".toList key, .keyring), (.list "db".toList, .keyring)]

theorem commands_show_no_secret_token : ∃ outcomes desk other,
    Invocations Fallible ⟨fun _ _ => none, ["s3cret\n".toList]⟩ (storeAndList "TOKEN".toList)
      outcomes desk ∧
    Invocations Fallible ⟨fun _ _ => none, ["other".toList]⟩ (storeAndList "TOKEN".toList)
      outcomes other := by
  have htotal : ∀ vault op, ∃ ans vault', Fallible vault op ans vault' := by
    intro vault op
    obtain ⟨ans, vault', h⟩ := faithful_total vault op
    exact ⟨ans, vault', Or.inl h⟩
  obtain ⟨outcomes, desk, hrun⟩ := invocations_exist htotal
    ⟨fun _ _ => none, ["s3cret\n".toList]⟩ (storeAndList "TOKEN".toList)
  have hk : OrdinaryKeys (storeAndList "TOKEN".toList) := by
    intro command hmem server key heq
    rcases List.mem_pair.mp hmem with rfl | rfl
    · obtain ⟨_, rfl⟩ := CredAction.set.inj heq
      decide
    · cases heq
  have hblank : SameBlank "s3cret\n".toList "other".toList := by
    unfold SameBlank
    decide
  have hsame : SameDesk ⟨fun _ _ => none, ["s3cret\n".toList]⟩ ⟨fun _ _ => none, ["other".toList]⟩ :=
    ⟨⟨fun _ _ => rfl, fun _ => rfl⟩, .cons hblank .nil⟩
  obtain ⟨other, hother, _⟩ := commands_show_no_secret hk hsame hrun
  exact ⟨outcomes, desk, other, hrun, hother⟩

end Programs

end FaninMcp.CredSecrecy
