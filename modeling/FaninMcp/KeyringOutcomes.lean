import FaninMcp.KeyringFailures

/-!
# What a credential command's outcome is worth

The outcome of `set` and `delete` against the store as later reads show it: is a
failed `set` undone, is a `delete` that succeeded one, and are the names of other
credentials left alone. Each holds under a condition on the backend's answers.
-/

set_option autoImplicit false

namespace FaninMcp.KeyringOutcomes
open Foundation.RustText Foundation.JsonText Foundation.AsyncPrograms FaninMcp.KeyringModel
  FaninMcp.KeyringRefinement FaninMcp.KeyringFailures

section Properties
variable (server key : Text) (vault vault' : Vault)

/-- Reads of the key and of the names come to the same before and after. -/
def Unchanged : Prop :=
  (∀ out, Answers (get server key) vault' out ↔ Answers (get server key) vault out) ∧
    ∀ out, Answers (listNames server) vault' out ↔ Answers (listNames server) vault out

def Resolves : Prop := ∃ value, Answers (get server key) vault (.ok (some value))

/-- A removal that succeeds is one, and one that does not is an error and leaves
the credential listed. -/
def Truthful (out : Except Text Unit) : Prop :=
  (out = .ok () → ¬ Resolves server key vault' ∧ ¬ Lists server key vault') ∧
    (Resolves server key vault' → (∃ e, out = .error e) ∧
      (Lists server key vault → Lists server key vault'))

def Kept : Prop :=
  ∀ k, k ≠ key → Lists server k vault → Resolves server k vault' → Lists server k vault'

end Properties

section Reads
variable {server key : Text} {vault vault' : Vault}

theorem resolves_iff : Resolves server key vault ↔ stored vault server key ≠ none := by
  simp only [Resolves, answers_get, Except.ok.injEq]
  rw [Option.ne_none_iff_exists]

theorem unchanged_iff : Unchanged server key vault vault' ↔
    stored vault' server key = stored vault server key ∧
      listed vault' server = listed vault server := by
  simp only [Unchanged, answers_get, answers_listNames]
  constructor
  · rintro ⟨hget, hlist⟩
    refine ⟨Except.ok.inj ((hget _).mp rfl), ?_⟩
    have hsort := congrArg List.toFinset (Except.ok.inj ((hlist _).mp rfl))
    rwa [Finset.sort_toFinset, Finset.sort_toFinset] at hsort
  · rintro ⟨hstored, hlisted⟩
    rw [hstored, hlisted]
    exact ⟨fun _ => Iff.rfl, fun _ => Iff.rfl⟩

theorem put_stored {value : Option Text} (h : stored vault server key = value) :
    put vault (service server) key value = vault := by
  subst h
  simp [put, stored]

theorem listed_none (h : stored vault server indexUser = none) : listed vault server = ∅ := by
  rw [stored] at h
  simp [listed, h]

end Reads

section Set
variable {server key value : Text} {vault vault' : Vault} {t : Log}

/-- A `set` that reports an error left everything as it was exactly if its first
write was refused as well, or changed nothing. -/
theorem set_atomic_exact (server key value : Text) (vault vault' : Vault) (t : Log) (e : Text)
    (h : Runs Fallible (KeyringModel.set server key value) vault t (.error e) vault') :
    Unchanged server key vault vault' ↔
      ¬ Wrote server key value t ∨ stored vault server key = some value := by
  rw [unchanged_iff]
  rcases set_fallible h with ⟨hw, _, _, rfl⟩ | ⟨hw, idx, _, hsaved⟩
  · exact iff_of_true ⟨rfl, rfl⟩ (Or.inl hw)
  rcases hsaved with ⟨_, hout, _⟩ | ⟨_, _, rfl⟩
  · cases hout
  constructor
  · rintro ⟨hstored, _⟩
    rw [stored, put_same] at hstored
    exact Or.inr hstored.symm
  · intro hcond
    have hsame := hcond.resolve_left (not_not.mpr hw)
    rw [put_stored hsame]
    exact ⟨rfl, rfl⟩

theorem set_half_made (vault : Vault) (server key value message : Text) :
    Runs Fallible (KeyringModel.set server key value) vault
      [⟨.entry (service server) key, .ok ()⟩, ⟨.setPassword (service server) key value, .ok ()⟩,
        ⟨.entry (service server) indexUser, .error (.other message)⟩,
        ⟨.entry (service server) indexUser, .error (.other message)⟩]
      (.error ("keyring index error for ".toList ++ server ++ ": ".toList ++ message))
      (put vault (service server) key (some value)) :=
  .act (Or.inl ⟨rfl, rfl⟩) (.act (Or.inl ⟨rfl, rfl⟩) (.act (Or.inr ⟨⟨message, rfl⟩, rfl⟩)
    (.act (Or.inr ⟨⟨message, rfl⟩, rfl⟩) (.done _ _))))

theorem set_refused (vault : Vault) (server key value message : Text) :
    Runs Fallible (KeyringModel.set server key value) vault
      [⟨.entry (service server) key, .ok ()⟩,
        ⟨.setPassword (service server) key value, .error (.other message)⟩]
      (.error ("keyring set failed for ".toList ++ server ++ "/".toList ++ key ++ ": ".toList ++
        message)) vault :=
  .act (Or.inl ⟨rfl, rfl⟩) (.act (Or.inr ⟨⟨message, rfl⟩, rfl⟩) (.done _ _))

theorem set_atomic_exact_refused :
    Unchanged "db".toList "token".toList (fun _ _ => none) (fun _ _ => none) :=
  (set_atomic_exact "db".toList "token".toList "s3cret".toList _ _ _ _
    (set_refused _ _ _ _ "locked".toList)).mpr (Or.inl (by simp [Wrote]))

/-- A `set` fails, and its secret is stored. -/
theorem failed_set_stores : ∃ t e vault',
    Runs Fallible (KeyringModel.set "db".toList "token".toList "s3cret".toList)
      (fun _ _ => none) t (.error e) vault' ∧
    ¬ Unchanged "db".toList "token".toList (fun _ _ => none) vault' ∧
    Answers (get "db".toList "token".toList) vault' (.ok (some "s3cret".toList)) := by
  refine ⟨_, _, _, set_half_made _ _ _ _ "locked".toList, ?_, ?_⟩
  · rw [unchanged_iff, stored, put_same]
    rintro ⟨h, _⟩
    cases h
  · rw [answers_get, stored, put_same]

end Set

section Delete
variable {server key : Text} {vault vault' mid : Vault} {t : Log}

/-- The backend's answers to a `delete` that removes. For a key of its own the
credential went away or was not there, and the names were written back or did
not have it; the reserved entry is written again by the names. -/
def RemovedFor (server key : Text) (vault : Vault) (t : Log) : Prop :=
  (Removed server key t ∨ stored vault server key = none) ∧
    if key = indexUser then ¬ Saved server t
    else Saved server t ∨ key ∉ listed vault server

theorem dropped_stored (hmid : mid = put vault (service server) key none ∧
      (Removed server key t ∨ stored vault server key = none) ∨
    mid = vault ∧ ¬ Removed server key t) :
    stored mid server key = none ↔ Removed server key t ∨ stored vault server key = none := by
  rcases hmid with ⟨rfl, hgone⟩ | ⟨rfl, hstays⟩
  · rw [stored, put_same]
    exact iff_of_true rfl hgone
  · exact (or_iff_right hstays).symm

theorem dropped_listed (hindex : key ≠ indexUser)
    (hmid : mid = put vault (service server) key none ∨ mid = vault) :
    listed mid server = listed vault server := by
  rcases hmid with rfl | rfl
  · exact listed_user vault server hindex.symm none
  · rfl

theorem delete_ordinary (hindex : key ≠ indexUser) {out : Except Text Unit}
    (h : Runs Fallible (delete server key) vault t out vault') :
    (stored vault' server key = none ↔ Removed server key t ∨ stored vault server key = none) ∧
      (key ∉ listed vault' server ↔ Saved server t ∨ key ∉ listed vault server) := by
  obtain ⟨_, mid, idx, hmid, _, hsaved⟩ := delete_fallible h
  have hlisted := dropped_listed hindex (hmid.imp And.left And.left)
  rw [← dropped_stored hmid]
  rcases hsaved with ⟨hs, order, horder, rfl⟩ | ⟨hs, rfl⟩
  · constructor
    · rw [stored, put_user _ _ hindex, stored]
    · rw [listed_index, horder]
      exact iff_of_true (Finset.notMem_erase key idx) (Or.inl hs)
  · constructor
    · rfl
    · rw [hlisted]
      exact (or_iff_right hs).symm

theorem delete_reserved {out : Except Text Unit}
    (h : Runs Fallible (delete server indexUser) vault t out vault') :
    stored vault' server indexUser = none ↔
      (Removed server indexUser t ∨ stored vault server indexUser = none) ∧ ¬ Saved server t := by
  obtain ⟨_, mid, idx, hmid, _, hsaved⟩ := delete_fallible h
  rw [← dropped_stored hmid]
  rcases hsaved with ⟨hs, order, horder, rfl⟩ | ⟨hs, rfl⟩
  · rw [stored, put_same]
    simp [hs]
  · simp [hs]

theorem delete_always_ok {out : Except Text Unit}
    (h : Runs Fallible (delete server key) vault t out vault') : out = .ok () :=
  (delete_fallible h).1

theorem truthful_iff :
    Truthful server key vault vault' (.ok ()) ↔
      stored vault' server key = none ∧ key ∉ listed vault' server := by
  simp only [Truthful, resolves_iff, lists_iff, not_not, forall_true_left, reduceCtorEq,
    exists_false, false_and, imp_false]
  exact ⟨And.left, fun h => ⟨h, h.1⟩⟩

/-- `delete` always succeeds; its success is true exactly if the backend's
answers were those of a removal. -/
theorem delete_truthful_exact (server key : Text) (vault vault' : Vault) (t : Log)
    (out : Except Text Unit) (h : Runs Fallible (delete server key) vault t out vault') :
    Truthful server key vault vault' out ↔ RemovedFor server key vault t := by
  obtain rfl := delete_always_ok h
  rw [truthful_iff, RemovedFor]
  by_cases hindex : key = indexUser
  · subst hindex
    rw [if_pos rfl, ← delete_reserved h]
    exact and_iff_left_of_imp fun hnone => by simp [listed_none hnone]
  · obtain ⟨hstored, hlisted⟩ := delete_ordinary hindex h
    rw [if_neg hindex, hstored, hlisted]

theorem delete_shut (vault : Vault) (server key message : Text) :
    Runs Fallible (delete server key) vault
      [⟨.entry (service server) key, .error (.other message)⟩,
        ⟨.entry (service server) indexUser, .error (.other message)⟩,
        ⟨.entry (service server) indexUser, .error (.other message)⟩]
      (.ok ()) vault :=
  .act (Or.inr ⟨⟨message, rfl⟩, rfl⟩) (.act (Or.inr ⟨⟨message, rfl⟩, rfl⟩)
    (.act (Or.inr ⟨⟨message, rfl⟩, rfl⟩) (.done _ _)))

def oneToken : Vault :=
  put (put (fun _ _ => none) (service "db".toList) "token".toList (some "s3cret".toList))
    (service "db".toList) indexUser (some (encodeNames ["token".toList]))

theorem oneToken_stored : stored oneToken "db".toList "token".toList = some "s3cret".toList := by
  rw [stored, oneToken, put_user _ _ (by decide), put_same]

theorem oneToken_listed : "token".toList ∈ listed oneToken "db".toList := by
  rw [oneToken, listed_index]
  decide

theorem delete_oneToken : Runs Fallible (delete "db".toList "token".toList) oneToken
    [⟨.entry (service "db".toList) "token".toList, .ok ()⟩,
      ⟨.deleteCredential (service "db".toList) "token".toList, .ok ()⟩,
      ⟨.entry (service "db".toList) indexUser, .ok ()⟩,
      ⟨.getPassword (service "db".toList) indexUser, .ok (encodeNames ["token".toList])⟩,
      ⟨.entry (service "db".toList) indexUser, .ok ()⟩,
      ⟨.iterate (["token".toList].toFinset.erase "token".toList), ⟨[], by decide, by simp⟩⟩,
      ⟨.setPassword (service "db".toList) indexUser (encodeNames []), .ok ()⟩]
    (.ok ()) (put (put oneToken (service "db".toList) "token".toList none) (service "db".toList)
      indexUser (some (encodeNames []))) := by
  have hgone : Fallible oneToken (.deleteCredential (service "db".toList) "token".toList) (.ok ())
      (put oneToken (service "db".toList) "token".toList none) := by
    refine Or.inl ⟨?_, rfl⟩
    have hstored : oneToken (service "db".toList) "token".toList = some "s3cret".toList :=
      oneToken_stored
    rw [hstored]
    rfl
  have hread : Fallible (put oneToken (service "db".toList) "token".toList none)
      (.getPassword (service "db".toList) indexUser) (.ok (encodeNames ["token".toList]))
      (put oneToken (service "db".toList) "token".toList none) := by
    refine Or.inl ⟨?_, rfl⟩
    rw [put_user _ _ (by decide), oneToken, put_same]
    rfl
  refine .act (Or.inl ⟨rfl, rfl⟩) (.act hgone (.act (Or.inl ⟨rfl, rfl⟩) (.act hread ?_)))
  exact .act (Or.inl ⟨rfl, rfl⟩) (.act (Or.inl rfl) (.act (Or.inl ⟨rfl, rfl⟩) (.done _ _)))

theorem delete_truthful_exact_removed : ∃ t vault',
    Runs Fallible (delete "db".toList "token".toList) oneToken t (.ok ()) vault' ∧
    Truthful "db".toList "token".toList oneToken vault' (.ok ()) := by
  refine ⟨_, _, delete_oneToken,
    (delete_truthful_exact "db".toList "token".toList _ _ _ _ delete_oneToken).mpr ?_⟩
  refine ⟨Or.inl (by simp [Removed]), ?_⟩
  rw [if_neg (by decide)]
  exact Or.inl ⟨_, rfl⟩

/-- A `delete` succeeds, and the credential is stored and listed as before. -/
theorem successful_delete_keeps : ∃ t vault',
    Runs Fallible (delete "db".toList "token".toList) oneToken t (.ok ()) vault' ∧
    ¬ Truthful "db".toList "token".toList oneToken vault' (.ok ()) ∧
    Answers (get "db".toList "token".toList) vault' (.ok (some "s3cret".toList)) ∧
    Lists "db".toList "token".toList vault' := by
  refine ⟨_, _, delete_shut _ _ _ "locked".toList, ?_, ?_, ?_⟩
  · rw [truthful_iff, oneToken_stored]
    rintro ⟨h, _⟩
    cases h
  · rw [answers_get, oneToken_stored]
  · exact lists_iff.mpr oneToken_listed

end Delete

section Frame
variable {server key value : Text} {vault vault' mid : Vault} {t : Log}

theorem kept_iff : Kept server key vault vault' ↔ ∀ k, k ≠ key → k ∈ listed vault server →
    stored vault' server k ≠ none → k ∈ listed vault' server := by
  simp only [Kept, lists_iff, resolves_iff]

def Other (server key : Text) (vault : Vault) (k : Text) : Prop :=
  k ≠ key ∧ k ∈ listed vault server ∧ stored vault server k ≠ none

def ReadBack (server : Text) (t : Log) : Prop := IndexRead server t ∨ ¬ Saved server t

theorem stored_other {k : Text} (hk : k ≠ key) (password : Option Text) :
    stored (put vault (service server) key password) server k = stored vault server k :=
  put_user vault (service server) hk password

theorem stored_saved {text : Text} {k : Text} (h : stored vault server k ≠ none) :
    stored (put vault (service server) indexUser (some text)) server k ≠ none := by
  by_cases hk : k = indexUser
  · subst hk
    rw [stored, put_same]
    simp
  · rwa [stored_other hk]

theorem kept_update {idx keys : Finset Text}
    (hmid : ∀ k, k ≠ key → stored mid server k = stored vault server k)
    (hkeys : ∀ k, k ≠ key → (k ∈ keys ↔ k ∈ idx))
    (hidx : IndexRead server t ∧ idx = listed mid server ∨ ¬ IndexRead server t ∧ idx = ∅)
    (hsaved : (Saved server t ∧ ∃ order : List Text, order.toFinset = keys ∧
        vault' = put mid (service server) indexUser (some (encodeNames order))) ∨
      ¬ Saved server t ∧ vault' = mid) :
    Kept server key vault vault' ↔
      ∀ k, Other server key vault k → ReadBack server t ∧ k ∈ listed mid server := by
  rw [kept_iff]
  rcases hsaved with ⟨hs, order, horder, rfl⟩ | ⟨hs, rfl⟩
  · have hread : ∀ k, k ≠ key → (k ∈ listed (put mid (service server) indexUser
        (some (encodeNames order))) server ↔ ReadBack server t ∧ k ∈ listed mid server) := by
      intro k hk
      rw [listed_index, horder, hkeys k hk]
      rcases hidx with ⟨hr, rfl⟩ | ⟨hr, rfl⟩
      · simp [ReadBack, hr]
      · simp [ReadBack, hr, hs]
    constructor
    · rintro h k ⟨hk, hlisted, hstored⟩
      rw [← hread k hk]
      apply h k hk hlisted
      apply stored_saved
      rwa [hmid k hk]
    · intro h k hk hlisted hstored
      rw [hread k hk]
      refine h k ⟨hk, hlisted, ?_⟩
      by_cases hindex : k = indexUser
      · rintro hnone
        subst hindex
        rw [listed_none hnone] at hlisted
        cases hlisted
      · rwa [stored_other hindex, hmid k hk] at hstored
  · have hback : ReadBack server t := Or.inr hs
    constructor
    · rintro h k ⟨hk, hlisted, hstored⟩
      exact ⟨hback, h k hk hlisted (by rwa [hmid k hk])⟩
    · intro h k hk hlisted hstored
      exact (h k ⟨hk, hlisted, by rwa [hmid k hk] at hstored⟩).2

/-- A `set` keeps the other names, unless it writes back an index it could not
read, or a text of its own in place of the index. -/
theorem set_kept {out : Except Text Unit}
    (h : Runs Fallible (KeyringModel.set server key value) vault t out vault') :
    Kept server key vault vault' ↔ ∀ k, Other server key vault k → Wrote server key value t →
      ReadBack server t ∧ (key = indexUser → k ∈ (decodeNames value).getD []) := by
  rcases set_fallible h with ⟨hw, _, _, rfl⟩ | ⟨hw, idx, hidx, hsaved⟩
  · refine iff_of_true ?_ fun _ _ hwrote => absurd hwrote hw
    intro k _ hlists _
    exact hlists
  have hlisted : ∀ k, Other server key vault k →
      (k ∈ listed (put vault (service server) key (some value)) server ↔
        (key = indexUser → k ∈ (decodeNames value).getD [])) := by
    rintro k ⟨_, hk, _⟩
    by_cases hindex : key = indexUser
    · subst hindex
      rw [listed, put_same, Option.bind_some, List.mem_toFinset]
      simp
    · rw [listed_user vault server (Ne.symm hindex)]
      simp [hindex, hk]
  rw [kept_update (fun k hk => stored_other hk _)
    (fun k hk => by rw [Finset.mem_insert, or_iff_right hk]) hidx
    (hsaved.imp (fun h => ⟨h.1, h.2.2⟩) fun h => ⟨h.1, h.2.2⟩)]
  simp only [hw, forall_true_left]
  exact forall₂_congr fun k hk => and_congr_right fun _ => hlisted k hk

/-- A `delete` keeps the other names, unless it writes back an index it could
not read, or has removed the index. -/
theorem delete_kept {out : Except Text Unit}
    (h : Runs Fallible (delete server key) vault t out vault') :
    Kept server key vault vault' ↔ ∀ k, Other server key vault k →
      ReadBack server t ∧ (key = indexUser → ¬ Removed server key t) := by
  obtain ⟨_, mid, idx, hmid, hidx, hsaved⟩ := delete_fallible h
  have hstored : ∀ k, k ≠ key → stored mid server k = stored vault server k := by
    intro k hk
    rcases hmid with ⟨rfl, _⟩ | ⟨rfl, _⟩
    · exact stored_other hk none
    · rfl
  have hlisted : ∀ k, Other server key vault k →
      (k ∈ listed mid server ↔ (key = indexUser → ¬ Removed server key t)) := by
    rintro k ⟨_, hk, _⟩
    by_cases hindex : key = indexUser
    · subst hindex
      have hkept : stored vault server indexUser ≠ none := fun hnone => by
        rw [listed_none hnone] at hk
        cases hk
      rcases hmid with ⟨rfl, hgone⟩ | ⟨rfl, hstays⟩
      · rw [listed_none (by rw [stored, put_same])]
        simp [hgone.resolve_right hkept]
      · simp [hk, hstays]
    · rw [dropped_listed hindex (hmid.imp And.left And.left)]
      simp [hindex, hk]
  rw [kept_update hstored (fun k hk => by rw [Finset.mem_erase, and_iff_right hk]) hidx hsaved]
  exact forall₂_congr fun k hk => and_congr_right fun _ => hlisted k hk

/-- What the other names survive, for both changes and every backend. -/
theorem names_kept_exact (server key : Text) (vault vault' : Vault) (t : Log)
    (out : Except Text Unit) :
    (∀ value, Runs Fallible (KeyringModel.set server key value) vault t out vault' →
      (Kept server key vault vault' ↔ ∀ k, Other server key vault k → Wrote server key value t →
        ReadBack server t ∧ (key = indexUser → k ∈ (decodeNames value).getD []))) ∧
    (Runs Fallible (delete server key) vault t out vault' →
      (Kept server key vault vault' ↔ ∀ k, Other server key vault k →
        ReadBack server t ∧ (key = indexUser → ¬ Removed server key t))) :=
  ⟨fun _ h => set_kept h, fun h => delete_kept h⟩

theorem set_unread (vault : Vault) (server key value message : Text) :
    Runs Fallible (KeyringModel.set server key value) vault
      [⟨.entry (service server) key, .ok ()⟩, ⟨.setPassword (service server) key value, .ok ()⟩,
        ⟨.entry (service server) indexUser, .ok ()⟩,
        ⟨.getPassword (service server) indexUser, .error (.other message)⟩,
        ⟨.entry (service server) indexUser, .ok ()⟩,
        ⟨.iterate (insert key ∅), ⟨[key], by simp⟩⟩,
        ⟨.setPassword (service server) indexUser (encodeNames [key]), .ok ()⟩]
      (.ok ()) (put (put vault (service server) key (some value)) (service server) indexUser
        (some (encodeNames [key]))) :=
  .act (Or.inl ⟨rfl, rfl⟩) (.act (Or.inl ⟨rfl, rfl⟩) (.act (Or.inl ⟨rfl, rfl⟩)
    (.act (Or.inr ⟨Or.inl ⟨message, rfl⟩, rfl⟩) (.act (Or.inl ⟨rfl, rfl⟩) (.act (Or.inl rfl)
      (.act (Or.inl ⟨rfl, rfl⟩) (.done _ _)))))))

/-- One failed read of the index, and the name of another credential is gone. -/
theorem unread_index_loses_names : ∃ t vault',
    Runs Fallible (KeyringModel.set "db".toList "user".toList "admin".toList) oneToken t (.ok ())
      vault' ∧
    ¬ Kept "db".toList "user".toList oneToken vault' ∧
    Answers (get "db".toList "token".toList) vault' (.ok (some "s3cret".toList)) ∧
    ¬ Lists "db".toList "token".toList vault' := by
  refine ⟨_, _, set_unread _ _ _ _ "busy".toList, ?_⟩
  have hget : stored (put (put oneToken (service "db".toList) "user".toList
      (some "admin".toList)) (service "db".toList) indexUser
      (some (encodeNames ["user".toList]))) "db".toList "token".toList = some "s3cret".toList := by
    rw [stored_other (by decide), stored_other (by decide), stored, oneToken,
      put_user _ _ (by decide), put_same]
  have hlist : ¬ Lists "db".toList "token".toList (put (put oneToken (service "db".toList)
      "user".toList (some "admin".toList)) (service "db".toList) indexUser
      (some (encodeNames ["user".toList]))) := by
    rw [lists_iff, listed_index]
    decide
  refine ⟨?_, (answers_get _ _ _ _).mpr (by rw [hget]), hlist⟩
  intro hkept
  refine hlist (hkept "token".toList (by decide) ?_ (resolves_iff.mpr (by rw [hget]; simp)))
  rw [lists_iff, oneToken, listed_index]
  decide

end Frame

end FaninMcp.KeyringOutcomes
