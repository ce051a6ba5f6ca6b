import FaninMcp.KeyringRefinement

/-!
# The keyring store over a backend that fails

Each change of a credential is several steps of the backend. A change that is
reported as failed may have been half made, one that is reported as done may not
have been made at all, and an index that could not be read is written back
empty. What a change comes to is decided by the answers its steps were given.
-/

set_option autoImplicit false

namespace FaninMcp.KeyringFailures
open Foundation.RustText Foundation.JsonText Foundation.AsyncPrograms FaninMcp.KeyringModel
  FaninMcp.KeyringRefinement

abbrev Log := List (Exchange keyringOps)

section Answered
variable (server key : Text)

def Wrote (value : Text) (t : Log) : Prop :=
  ⟨.setPassword (service server) key value, .ok ()⟩ ∈ t

def Removed (t : Log) : Prop := ⟨.deleteCredential (service server) key, .ok ()⟩ ∈ t

/-- The last step was to write the names, and the backend took them. -/
def Saved (t : Log) : Prop :=
  ∃ text, t.getLast? = some ⟨.setPassword (service server) indexUser text, .ok ()⟩

def IndexRead (t : Log) : Prop :=
  ∃ ans, ⟨.getPassword (service server) indexUser, ans⟩ ∈ t ∧
    ¬ Fails (.getPassword (service server) indexUser) ans

end Answered

section Steps
variable {vault vault' : Vault} {server key : Text} {t : Log}

theorem saved_append {t₁ t₂ : Log} (h : t₂ ≠ []) : Saved server (t₁ ++ t₂) ↔ Saved server t₂ := by
  simp [Saved, List.getLast?_append_of_ne_nil _ h]

theorem removed_append {t₁ t₂ : Log} :
    Removed server key (t₁ ++ t₂) ↔ Removed server key t₁ ∨ Removed server key t₂ := by
  simp [Removed]

theorem indexRead_append {t₁ t₂ : Log} :
    IndexRead server (t₁ ++ t₂) ↔ IndexRead server t₁ ∨ IndexRead server t₂ := by
  simp only [IndexRead, List.mem_append, or_and_right, exists_or]

theorem opened_fallible {α : Type} {user : Text}
    {g : Except KeyringError Unit → KeyringProg (Except Text Unit)}
    {f : Except Text Unit → KeyringProg α} {a : α} (hok : g (.ok ()) = .done (.ok ()))
    (herror : ∀ e, ∃ e', g (.error e) = .done (.error e'))
    (h : Runs Fallible ((calling (.entry (service server) user) >>= g) >>= f) vault t a vault') :
    ∃ ans rest, t = ⟨.entry (service server) user, ans⟩::rest ∧
      (Runs Fallible (f (.ok ())) vault rest a vault' ∨
        ∃ e, Runs Fallible (f (.error e)) vault rest a vault') := by
  obtain ⟨t₁, t₂, out, mid, rfl, hentry, hrest⟩ := runs_bind.mp h
  obtain ⟨ans, v, rest, rfl, hstep, hdone⟩ := runs_calling hentry
  have hsame : v = vault := by
    rcases hstep with hstep | hstep
    · exact hstep.2
    · exact hstep.2
  subst hsame
  refine ⟨ans, t₂, ?_⟩
  cases ans with
  | ok _ =>
    rw [hok] at hdone
    obtain ⟨rfl, rfl, rfl⟩ := runs_done.mp hdone
    exact ⟨rfl, Or.inl hrest⟩
  | error e =>
    obtain ⟨e', he⟩ := herror e
    rw [he] at hdone
    obtain ⟨rfl, rfl, rfl⟩ := runs_done.mp hdone
    exact ⟨rfl, Or.inr ⟨e', hrest⟩⟩

theorem entry_fallible {α : Type} {f : Except Text Unit → KeyringProg α} {a : α}
    (h : Runs Fallible (entry server key >>= f) vault t a vault') :
    ∃ ans rest, t = ⟨.entry (service server) key, ans⟩::rest ∧
      (Runs Fallible (f (.ok ())) vault rest a vault' ∨
        ∃ e, Runs Fallible (f (.error e)) vault rest a vault') :=
  opened_fallible rfl (fun _ => ⟨_, rfl⟩) h

theorem indexEntry_fallible {α : Type} {f : Except Text Unit → KeyringProg α} {a : α}
    (h : Runs Fallible (indexEntry server >>= f) vault t a vault') :
    ∃ ans rest, t = ⟨.entry (service server) indexUser, ans⟩::rest ∧
      (Runs Fallible (f (.ok ())) vault rest a vault' ∨
        ∃ e, Runs Fallible (f (.error e)) vault rest a vault') :=
  opened_fallible rfl (fun _ => ⟨_, rfl⟩) h

theorem setPassword_fallible {user password : Text} {ans : Except KeyringError Unit}
    (h : Fallible vault (.setPassword (service server) user password) ans vault') :
    ans = .ok () ∧ vault' = put vault (service server) user (some password) ∨
      (∃ e, ans = .error e) ∧ vault' = vault := by
  rcases h with h | ⟨⟨message, hmessage⟩, hsame⟩
  · exact Or.inl h
  · exact Or.inr ⟨⟨_, hmessage⟩, hsame⟩

theorem namesRead_fails {ans : Except KeyringError Text}
    (h : Fails (.getPassword (service server) indexUser) ans) : namesRead ans = ∅ := by
  rcases h with ⟨message, rfl⟩ | ⟨_, text, rfl, hnone⟩
  · rfl
  · rw [namesRead, namesOf, hnone]
    rfl

theorem loadIndex_fallible {names : Finset Text}
    (h : Runs Fallible (loadIndex server) vault t names vault') :
    vault' = vault ∧ (∀ key, ¬ Removed server key t) ∧
      (IndexRead server t ∧ names = listed vault server ∨ ¬ IndexRead server t ∧ names = ∅) := by
  obtain ⟨opened, rest, rfl, hread | ⟨e, hfailed⟩⟩ := indexEntry_fallible h
  · obtain ⟨ans, v, rest, rfl, hstep, hdone⟩ := runs_calling hread
    have hresult : rest = [] ∧ names = namesRead ans ∧ vault' = v := by
      cases ans with
      | error e => exact runs_done.mp hdone
      | ok text =>
        cases hd : decodeNames text with
        | none =>
          simp only [hd] at hdone
          simpa [namesRead, namesOf, hd] using runs_done.mp hdone
        | some found =>
          simp only [hd] at hdone
          simpa [namesRead, namesOf, hd] using runs_done.mp hdone
    obtain ⟨rfl, rfl, rfl⟩ := hresult
    have hindex : IndexRead server [⟨.entry (service server) indexUser, opened⟩,
        ⟨.getPassword (service server) indexUser, ans⟩] ↔
        ¬ Fails (.getPassword (service server) indexUser) ans := by
      simp [IndexRead]
    rcases hstep with ⟨rfl, rfl⟩ | ⟨hfails, rfl⟩
    · refine ⟨rfl, by simp [Removed], ?_⟩
      rw [namesRead_true]
      by_cases hfails : Fails (.getPassword (service server) indexUser)
          ((vault' (service server) indexUser).elim (.error .noEntry) .ok)
      · refine Or.inr ⟨fun h => hindex.mp h hfails, ?_⟩
        rw [← namesRead_true, namesRead_fails hfails]
      · exact Or.inl ⟨hindex.mpr hfails, rfl⟩
    · exact ⟨rfl, by simp [Removed], Or.inr ⟨fun h => hindex.mp h hfails, namesRead_fails hfails⟩⟩
  · obtain ⟨rfl, rfl, rfl⟩ := runs_done.mp hfailed
    refine ⟨rfl, by simp [Removed], Or.inr ⟨?_, rfl⟩⟩
    rintro ⟨ans, hmem, _⟩
    simp at hmem

theorem saveIndex_fallible {keys : Finset Text} {out : Except Text Unit}
    (h : Runs Fallible (saveIndex server keys) vault t out vault') :
    t ≠ [] ∧ ¬ IndexRead server t ∧ (∀ key, ¬ Removed server key t) ∧
      (Saved server t ∧ out = .ok () ∧ (∃ order : List Text, order.toFinset = keys ∧
          vault' = put vault (service server) indexUser (some (encodeNames order))) ∨
        ¬ Saved server t ∧ (∃ e, out = .error e) ∧ vault' = vault) := by
  obtain ⟨opened, rest, rfl, hopen | ⟨e, hfailed⟩⟩ := indexEntry_fallible h
  · obtain ⟨⟨order, horder⟩, v, rest, rfl, hv, hwrite⟩ := runs_calling hopen
    have hsame : v = vault := by
      rcases hv with hv | hv
      · exact hv
      · exact hv.2
    subst hsame
    obtain ⟨ans, mid, rest, rfl, hstep, hdone⟩ := runs_calling hwrite
    rcases setPassword_fallible hstep with ⟨rfl, rfl⟩ | ⟨⟨e, rfl⟩, rfl⟩
    · obtain ⟨rfl, rfl, rfl⟩ := runs_done.mp hdone
      exact ⟨by simp, by simp [IndexRead], by simp [Removed],
        Or.inl ⟨⟨_, rfl⟩, rfl, order, horder.1, rfl⟩⟩
    · obtain ⟨rfl, rfl, rfl⟩ := runs_done.mp hdone
      exact ⟨by simp, by simp [IndexRead], by simp [Removed],
        Or.inr ⟨by simp [Saved], ⟨_, rfl⟩, rfl⟩⟩
  · obtain ⟨rfl, rfl, rfl⟩ := runs_done.mp hfailed
    exact ⟨by simp, by simp [IndexRead], by simp [Removed], Or.inr ⟨by simp [Saved], ⟨_, rfl⟩, rfl⟩⟩

theorem update_fallible {α : Type} {names : Finset Text → Finset Text}
    {f : Except Text Unit → KeyringProg α} {out : α} (before : Log)
    (hbefore : ¬ IndexRead server before)
    (h : Runs Fallible (loadIndex server >>= fun idx => saveIndex server (names idx) >>= f)
      vault t out vault') (hf : ∀ saved, ∃ a, f saved = .done a) :
    (∀ key, ¬ Removed server key t) ∧
    ∃ idx saved, (IndexRead server (before ++ t) ∧ idx = listed vault server ∨
        ¬ IndexRead server (before ++ t) ∧ idx = ∅) ∧ f saved = .done out ∧
      (Saved server (before ++ t) ∧ saved = .ok () ∧
          (∃ order : List Text, order.toFinset = names idx ∧
            vault' = put vault (service server) indexUser (some (encodeNames order))) ∨
        ¬ Saved server (before ++ t) ∧ (∃ e, saved = .error e) ∧ vault' = vault) := by
  obtain ⟨t₁, t₂, idx, mid, rfl, hload, hrest⟩ := runs_bind.mp h
  obtain ⟨rfl, hkept, hidx⟩ := loadIndex_fallible hload
  obtain ⟨t₂, t₃, saved, v, rfl, hsave, hdone⟩ := runs_bind.mp hrest
  obtain ⟨a, ha⟩ := hf saved
  rw [ha] at hdone
  obtain ⟨rfl, rfl, rfl⟩ := runs_done.mp hdone
  obtain ⟨hne, hunread, hkept', hsaved⟩ := saveIndex_fallible hsave
  rw [List.append_nil]
  refine ⟨fun key => ?_, idx, saved, ?_, ha, ?_⟩
  · rw [removed_append]
    exact not_or.mpr ⟨hkept key, hkept' key⟩
  · rw [indexRead_append, indexRead_append]
    simpa only [hbefore, hunread, false_or, or_false] using hidx
  · rw [saved_append (by simp [hne]), saved_append hne]
    exact hsaved

end Steps

section Changes
variable {vault vault' : Vault} {server key : Text} {t : Log}

theorem set_fallible {value : Text} {out : Except Text Unit}
    (h : Runs Fallible (KeyringModel.set server key value) vault t out vault') :
    ¬ Wrote server key value t ∧ ¬ Saved server t ∧ (∃ e, out = .error e) ∧ vault' = vault ∨
    Wrote server key value t ∧ ∃ idx,
      (IndexRead server t ∧ idx = listed (put vault (service server) key (some value)) server ∨
        ¬ IndexRead server t ∧ idx = ∅) ∧
      (Saved server t ∧ out = .ok () ∧ (∃ order : List Text, order.toFinset = insert key idx ∧
          vault' = put (put vault (service server) key (some value)) (service server) indexUser
            (some (encodeNames order))) ∨
        ¬ Saved server t ∧ (∃ e, out = .error e) ∧
          vault' = put vault (service server) key (some value)) := by
  obtain ⟨opened, rest, rfl, hopen | ⟨e, hfailed⟩⟩ := entry_fallible h
  · obtain ⟨ans, mid, rest, rfl, hstep, hnext⟩ := runs_calling hopen
    rcases setPassword_fallible hstep with ⟨rfl, rfl⟩ | ⟨⟨e, rfl⟩, rfl⟩
    · right
      have hupdate : Runs Fallible (loadIndex server >>= fun idx =>
          saveIndex server (insert key idx) >>= fun saved => .done saved)
          (put vault (service server) key (some value)) rest out vault' := by
        simpa only [prog_bind_pure] using hnext
      obtain ⟨_, idx, saved, hidx, hout, hsaved⟩ := update_fallible
        [⟨.entry (service server) key, opened⟩, ⟨.setPassword (service server) key value, .ok ()⟩]
        (by simp [IndexRead]) hupdate (fun saved => ⟨saved, rfl⟩)
      obtain rfl : saved = out := by simpa using hout
      exact ⟨by simp [Wrote], idx, hidx, hsaved⟩
    · obtain ⟨rfl, rfl, rfl⟩ := runs_done.mp hnext
      exact Or.inl ⟨by simp [Wrote], by simp [Saved], ⟨_, rfl⟩, rfl⟩
  · obtain ⟨rfl, rfl, rfl⟩ := runs_done.mp hfailed
    exact Or.inl ⟨by simp [Wrote], by simp [Saved], ⟨e, rfl⟩, rfl⟩

theorem dropEntry_fallible {out : Unit}
    (h : Runs Fallible (dropEntry server key) vault t out vault') :
    ¬ IndexRead server t ∧ (vault' = put vault (service server) key none ∧
        (Removed server key t ∨ stored vault server key = none) ∨
      vault' = vault ∧ ¬ Removed server key t) := by
  obtain ⟨opened, rest, rfl, hopen | ⟨e, hfailed⟩⟩ := entry_fallible h
  · obtain ⟨ans, mid, rest, rfl, hstep, hdone⟩ := runs_calling hopen
    obtain ⟨rfl, _, rfl⟩ := runs_done.mp hdone
    refine ⟨by simp [IndexRead], ?_⟩
    rcases hstep with ⟨hans, rfl⟩ | ⟨⟨message, rfl⟩, rfl⟩
    · refine Or.inl ⟨rfl, ?_⟩
      cases hstored : stored vault server key with
      | none => exact Or.inr rfl
      | some value =>
        rw [stored] at hstored
        rw [hstored] at hans
        obtain rfl : ans = .ok () := hans
        exact Or.inl (by simp [Removed])
    · exact Or.inr ⟨rfl, by simp [Removed]⟩
  · obtain ⟨rfl, _, rfl⟩ := runs_done.mp hfailed
    exact ⟨by simp [IndexRead], Or.inr ⟨rfl, by simp [Removed]⟩⟩

theorem delete_fallible {out : Except Text Unit}
    (h : Runs Fallible (delete server key) vault t out vault') :
    out = .ok () ∧ ∃ mid idx,
      (mid = put vault (service server) key none ∧
          (Removed server key t ∨ stored vault server key = none) ∨
        mid = vault ∧ ¬ Removed server key t) ∧
      (IndexRead server t ∧ idx = listed mid server ∨ ¬ IndexRead server t ∧ idx = ∅) ∧
      (Saved server t ∧ (∃ order : List Text, order.toFinset = idx.erase key ∧
          vault' = put mid (service server) indexUser (some (encodeNames order))) ∨
        ¬ Saved server t ∧ vault' = mid) := by
  obtain ⟨t₁, t₂, _, mid, rfl, hdrop, hnext⟩ := runs_bind.mp h
  obtain ⟨hunread, hmid⟩ := dropEntry_fallible hdrop
  have hupdate : Runs Fallible (loadIndex server >>= fun idx =>
      saveIndex server (idx.erase key) >>= fun _ => .done (.ok ())) mid t₂ out vault' := hnext
  obtain ⟨hkept, idx, saved, hidx, hout, hsaved⟩ := update_fallible t₁ hunread hupdate
    (fun _ => ⟨.ok (), rfl⟩)
  obtain rfl : out = .ok () := by simpa using hout.symm
  refine ⟨rfl, mid, idx, ?_, hidx, ?_⟩
  · rw [removed_append]
    simpa only [hkept key, or_false] using hmid
  · rcases hsaved with ⟨hs, _, hput⟩ | ⟨hs, _, hput⟩
    · exact Or.inl ⟨hs, hput⟩
    · exact Or.inr ⟨hs, hput⟩

end Changes

end FaninMcp.KeyringFailures
