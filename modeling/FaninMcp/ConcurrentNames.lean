import FaninMcp.Foundation.InterleavedRuns
import FaninMcp.KeyringRefinement

/-!
# Two processes that store a credential at once

The names of a server are one entry of the keyring, which a store reads, adds
a name to and writes back. Nothing keeps two processes from doing so at the
same time. As far as the names go a store is an update of one cell, whatever
else it does, and of two updates that both read before either writes the one
that writes first is lost.
-/

set_option autoImplicit false

namespace FaninMcp.ConcurrentNames
open Foundation.RustText Foundation.AsyncPrograms FaninMcp.KeyringModel
  FaninMcp.KeyringRefinement

section Names
variable {server : Text}

abbrev namesOps : Signature := cellOps (Finset Text)

/-- What a step of the backend is to the names of a server. -/
def namesSeen (server : Text) : Exchange keyringOps → Option (Exchange namesOps)
  | ⟨.getPassword s user, ans⟩ =>
    if s = service server ∧ user = indexUser then some ⟨.read, namesRead ans⟩ else none
  | ⟨.setPassword s user password, _⟩ =>
    if s = service server ∧ user = indexUser then some ⟨.write (namesOf password), ()⟩ else none
  | _ => none

def Keeps (server : Text) (vault : Vault) (names : Finset Text) : Prop :=
  names = listed vault server

abbrev ActsAs {α : Type} (server : Text) : KeyringProg α → Prog namesOps α → Prop :=
  Implements Faithful Cell (Keeps server) (namesSeen server)

theorem opened_silent {α : Type} {s user : Text}
    {next : Except KeyringError Unit → KeyringProg α} {q : Prog namesOps α}
    (h : ActsAs server (next (.ok ())) q) : ActsAs server (.act (.entry s user) next) q := by
  apply Implements.silent
  · rintro vault names ans vault' hkeeps ⟨_, rfl⟩
    exact ⟨rfl, hkeeps⟩
  · rintro vault names ans vault' _ ⟨rfl, _⟩
    exact h

theorem loadIndex_reads (server : Text) : ActsAs server (loadIndex server) readCell := by
  apply opened_silent
  apply Implements.act namesRead
  · rintro vault names ans vault' rfl ⟨rfl, rfl⟩
    refine ⟨by simp [namesSeen], listed vault' server, ⟨?_, rfl⟩, rfl⟩
    exact namesRead_true vault' server
  · rintro vault names (e | text) vault' _ _
    · exact .done ∅
    · dsimp only [namesRead, namesOf, Prog.bind]
      cases decodeNames text with
      | none => exact .done _
      | some names => exact .done _

theorem saveIndex_writes (server : Text) (keys : Finset Text) :
    ActsAs server (saveIndex server keys) (writeCell keys >>= fun _ => .done (.ok ())) := by
  apply opened_silent
  apply Implements.silent
  · rintro vault names ans vault' hkeeps rfl
    exact ⟨rfl, hkeeps⟩
  · rintro vault names ⟨order, horder, _⟩ vault' _ _
    have hwritten : namesOf (encodeNames order) = keys := by
      rw [namesOf, decode_encode]
      exact horder
    apply Implements.act fun _ => ()
    · rintro vault names ans vault' _ ⟨_, rfl⟩
      refine ⟨by simp [namesSeen, hwritten], keys, rfl, ?_⟩
      rw [Keeps, listed_index, horder]
    · rintro vault names ans vault' _ ⟨rfl, _⟩
      exact .done _

/-- As far as the names go, to store a credential is to add its key to them. -/
theorem set_updates {key : Text} (hk : key ≠ indexUser) (value : Text) :
    ActsAs server (set server key value) (updateCell (insert key) (.ok ())) := by
  apply opened_silent
  apply Implements.silent
  · rintro vault names ans vault' hkeeps ⟨_, rfl⟩
    refine ⟨by simp [namesSeen, hk], ?_⟩
    rw [Keeps, listed_user vault server hk.symm]
    exact hkeeps
  · rintro vault names ans vault' _ ⟨rfl, _⟩
    exact implements_bind (loadIndex_reads server) fun idx =>
      saveIndex_writes server (insert key idx)

end Names

section Exactness
variable {server : Text} {t : List (Side × Exchange keyringOps)}

def Loads (server : Text) (side : Side) (e : Side × Exchange keyringOps) : Prop :=
  e.1 = side ∧ e.2.1 = .getPassword (service server) indexUser

def Saves (server : Text) (side : Side) (e : Side × Exchange keyringOps) : Prop :=
  e.1 = side ∧ ∃ text, e.2.1 = .setPassword (service server) indexUser text

theorem loads_seen (side : Side) (e : Side × Exchange keyringOps) :
    (∃ y, sideSeen (namesSeen server) e = some y ∧ Reads side y) ↔ Loads server side e := by
  obtain ⟨side', op, ans⟩ := e
  cases op <;> simp [sideSeen, namesSeen, Reads, Loads, and_comm]

theorem saves_seen (side : Side) (e : Side × Exchange keyringOps) :
    (∃ y, sideSeen (namesSeen server) e = some y ∧ Writes side y) ↔ Saves server side e := by
  obtain ⟨side', op, ans⟩ := e
  cases op <;> simp [sideSeen, namesSeen, Writes, Saves, and_comm]

theorem before_seen {P Q : Side × Exchange namesOps → Prop}
    {P' Q' : Side × Exchange keyringOps → Prop}
    (hP : ∀ e, (∃ y, sideSeen (namesSeen server) e = some y ∧ P y) ↔ P' e)
    (hQ : ∀ e, (∃ y, sideSeen (namesSeen server) e = some y ∧ Q y) ↔ Q' e) :
    Before P Q (t.filterMap (sideSeen (namesSeen server))) ↔ Before P' Q' t :=
  (before_filterMap _ t).trans (before_congr hP hQ t)

variable (key value : Side → Text) {vault vault' : Vault} {out out' : Except Text Unit}

theorem stores_interleaved (hkey : ∀ side, key side ≠ indexUser)
    (h : Interleaved Faithful (set server (key .left) (value .left))
      (set server (key .right) (value .right)) vault t out out' vault') :
    out = .ok () ∧ out' = .ok () ∧ ∃ first : Side,
      Before (Saves server first) (Saves server first.other) t ∧
      ¬ Before (Saves server first.other) (Saves server first) t ∧
      (Before (Saves server first) (Loads server first.other) t ∧ listed vault' server =
          insert (key first.other) (insert (key first) (listed vault server)) ∨
        ¬ Before (Saves server first) (Loads server first.other) t ∧ listed vault' server =
          insert (key first.other) (listed vault server)) := by
  obtain ⟨names, hnames, hend⟩ := interleaved_implements h (set_updates (hkey .left) (value .left))
    (set_updates (hkey .right) (value .right)) rfl
  have hcases := updates_interleaved (f := fun side => insert (key side)) hnames
  rw [show names = listed vault' server from hend] at hcases
  simpa only [before_seen (saves_seen _) (saves_seen _),
    before_seen (saves_seen _) (loads_seen _)] using hcases

theorem key_other {key : Side → Text} (hne : key .left ≠ key .right) (side : Side) :
    key side ≠ key side.other := by
  cases side with
  | left => exact hne
  | right => exact hne.symm

/-- After two stores of different keys, whatever the order of their steps, both
keys and all that was listed before are listed exactly if the second to save
the names loaded them after the first had saved them, or the first had nothing
to add. -/
theorem concurrent_stores_exact (hkey : ∀ side, key side ≠ indexUser)
    (hne : key .left ≠ key .right)
    (h : Interleaved Faithful (set server (key .left) (value .left))
      (set server (key .right) (value .right)) vault t out out' vault') :
    out = .ok () ∧ out' = .ok () ∧
    ((∀ side, Lists server (key side) vault') ∧
        (∀ name, Lists server name vault → Lists server name vault') ↔
      ∃ first : Side, Before (Saves server first) (Saves server first.other) t ∧
        (Before (Saves server first) (Loads server first.other) t ∨
          Lists server (key first) vault)) := by
  obtain ⟨hout, hout', first, hsaves, hlast, hnames⟩ := stores_interleaved key value hkey h
  refine ⟨hout, hout', ?_⟩
  simp only [lists_iff]
  constructor
  · rintro ⟨hkeys, -⟩
    refine ⟨first, hsaves, ?_⟩
    obtain ⟨hturn, -⟩ | ⟨-, heq⟩ := hnames
    · exact .inl hturn
    · -- what the first to save wrote is gone
      have hfirst := hkeys first
      rw [heq, Finset.mem_insert] at hfirst
      exact .inr (hfirst.resolve_left (key_other hne first))
  · rintro ⟨side, hside, hcase⟩
    obtain rfl : side = first := (side_cases first side).resolve_right fun heq => by
      subst heq
      rw [Side.other_other] at hside
      exact hlast hside
    have hfinal : listed vault' server =
        insert (key side.other) (insert (key side) (listed vault server)) := by
      obtain ⟨-, heq⟩ | ⟨hturn, heq⟩ := hnames
      · exact heq
      · rw [heq, Finset.insert_eq_of_mem (hcase.resolve_left hturn)]
    rw [hfinal]
    constructor
    · intro side'
      obtain rfl | rfl := side_cases side side'
      · simp
      · simp
    · intro name hname
      exact Finset.mem_insert_of_mem (Finset.mem_insert_of_mem hname)

end Exactness

section Overlap

def either (a b : Text) : Side → Text
  | .left => a
  | .right => b

theorem set_listed {server key value : Text} {vault vault' : Vault} {out : Except Text Unit}
    {t : List (Exchange keyringOps)} (hk : key ≠ indexUser)
    (h : Runs Faithful (set server key value) vault t out vault') :
    out = .ok () ∧ listed vault' server = insert key (listed vault server) := by
  obtain ⟨hout, order, horder, rfl⟩ := set_faithful h
  refine ⟨hout, ?_⟩
  rw [listed_index, horder, listed_user vault server hk.symm]

theorem concurrent_stores_exact_in_turn :
    ∃ t vault', Interleaved Faithful (set "db".toList "user".toList "admin".toList)
        (set "db".toList "token".toList "s3cret".toList) (fun _ _ => none) t (.ok ()) (.ok ())
        vault' ∧
      ∃ first : Side, Before (Saves "db".toList first) (Saves "db".toList first.other) t ∧
        (Before (Saves "db".toList first) (Loads "db".toList first.other) t ∨
          Lists "db".toList (either "user".toList "token".toList first) (fun _ _ => none)) := by
  obtain ⟨t, out, mid, hleft⟩ := runs_total faithful_total
    (set "db".toList "user".toList "admin".toList) (fun _ _ => none)
  obtain ⟨t', out', vault', hright⟩ := runs_total faithful_total
    (set "db".toList "token".toList "s3cret".toList) mid
  obtain ⟨rfl, hmid⟩ := set_listed (by decide) hleft
  obtain ⟨rfl, hend⟩ := set_listed (by decide) hright
  have hrun := interleaved_runs hleft hright
  refine ⟨_, vault', hrun, (concurrent_stores_exact (either "user".toList "token".toList)
    (either "admin".toList "s3cret".toList) ?_ (by decide) hrun).2.2.mp ⟨?_, ?_⟩⟩
  · intro side
    cases side <;> decide
  · intro side
    rw [lists_iff, hend, hmid]
    cases side <;> simp [either]
  · intro name hname
    rw [lists_iff] at hname ⊢
    rw [hend, hmid]
    exact Finset.mem_insert_of_mem (Finset.mem_insert_of_mem hname)

theorem stores_overlap (vault : Vault) (server key value key' value' : Text)
    (hk : key ≠ indexUser) :
    ∃ t vault', Interleaved Faithful (set server key value) (set server key' value') vault t
        (.ok ()) (.ok ()) vault' ∧ listed vault' server = insert key (listed vault server) := by
  let stored := put vault (service server) key (some value)
  obtain ⟨t, names, mid, hload⟩ := runs_total faithful_total (loadIndex server) stored
  obtain ⟨rfl, rfl⟩ := loadIndex_faithful hload
  obtain ⟨t', out', mid, hright⟩ := runs_total faithful_total (set server key' value') stored
  obtain ⟨rfl, -⟩ := set_faithful hright
  obtain ⟨t'', out, vault', hsave⟩ := runs_total faithful_total
    (saveIndex server (insert key (listed stored server))) mid
  obtain ⟨rfl, order, horder, rfl⟩ := saveIndex_faithful hsave
  have hentry : Runs Faithful (entry server key) vault _ (.ok ()) vault :=
    .act ⟨rfl, rfl⟩ (.done _ _)
  have hrest := interleaved_left_bind (f := fun idx => saveIndex server (insert key idx)) hload
    (interleaved_right_runs hright (interleaved_left_runs hsave (.done _ _ _)))
  refine ⟨_, _, interleaved_left_bind hentry (.left _ ⟨rfl, rfl⟩ hrest), ?_⟩
  rw [listed_index, horder, listed_user vault server hk.symm]

/-- Both processes succeed, and the name that one of them stored is not listed. -/
theorem overlapping_store_lost :
    ∃ t vault', Interleaved Faithful (set "db".toList "user".toList "admin".toList)
        (set "db".toList "token".toList "s3cret".toList) (fun _ _ => none) t (.ok ()) (.ok ())
        vault' ∧
      Lists "db".toList "user".toList vault' ∧ ¬ Lists "db".toList "token".toList vault' := by
  obtain ⟨t, vault', hrun, hnames⟩ := stores_overlap (fun _ _ => none) "db".toList
    "user".toList "admin".toList "token".toList "s3cret".toList (by decide)
  refine ⟨t, vault', hrun, ?_⟩
  rw [lists_iff, lists_iff, hnames]
  decide

end Overlap

end FaninMcp.ConcurrentNames
