import FaninMcp.KeyringModel

/-!
# The keyring store and the map it stands for

Over a backend that never fails, the entries of a service are the credentials
of a server, all but one: the entry with the names is in the same key space, and
no key is kept from it. For every other key the store is a finite map.
-/

set_option autoImplicit false

namespace FaninMcp.KeyringRefinement
open Foundation.RustText Foundation.JsonText Foundation.AsyncPrograms FaninMcp.KeyringModel

section Specifications
variable {vault vault' : Vault} {server key : Text} {t : List (Exchange keyringOps)}

theorem runs_calling {R : Semantics keyringOps Vault} {α : Type} {op : KeyringOp}
    {f : KeyringAns op → KeyringProg α} {a : α} (h : Runs R (calling op >>= f) vault t a vault') :
    ∃ ans mid rest, t = ⟨op, ans⟩::rest ∧ R vault op ans mid ∧ Runs R (f ans) mid rest a vault' :=
  runs_act.mp h

theorem opened_faithful {α : Type} {user : Text}
    {g : Except KeyringError Unit → KeyringProg (Except Text Unit)}
    {f : Except Text Unit → KeyringProg α} {a : α} (hok : g (.ok ()) = .done (.ok ()))
    (h : Runs Faithful ((calling (.entry (service server) user) >>= g) >>= f) vault t a vault') :
    ∃ rest, Runs Faithful (f (.ok ())) vault rest a vault' := by
  obtain ⟨t₁, t₂, out, mid, rfl, hentry, hrest⟩ := runs_bind.mp h
  obtain ⟨ans, v, rest, rfl, ⟨rfl, rfl⟩, hdone⟩ := runs_calling hentry
  rw [hok] at hdone
  obtain ⟨rfl, rfl, rfl⟩ := runs_done.mp hdone
  exact ⟨t₂, hrest⟩

theorem entry_faithful {α : Type} {f : Except Text Unit → KeyringProg α} {a : α}
    (h : Runs Faithful (entry server key >>= f) vault t a vault') :
    ∃ rest, Runs Faithful (f (.ok ())) vault rest a vault' := opened_faithful rfl h

theorem indexEntry_faithful {α : Type} {f : Except Text Unit → KeyringProg α} {a : α}
    (h : Runs Faithful (indexEntry server >>= f) vault t a vault') :
    ∃ rest, Runs Faithful (f (.ok ())) vault rest a vault' := opened_faithful rfl h

theorem loadIndex_faithful {names : Finset Text}
    (h : Runs Faithful (loadIndex server) vault t names vault') :
    names = listed vault server ∧ vault' = vault := by
  obtain ⟨rest, h⟩ := indexEntry_faithful h
  obtain ⟨ans, v, rest, rfl, ⟨rfl, rfl⟩, h⟩ := runs_calling h
  rw [listed]
  cases hp : v (service server) indexUser with
  | none =>
    rw [hp] at h
    obtain ⟨_, rfl, rfl⟩ := runs_done.mp h
    exact ⟨rfl, rfl⟩
  | some text =>
    rw [hp] at h
    cases hd : decodeNames text with
    | none =>
      simp only [Option.elim_some, hd] at h
      obtain ⟨_, rfl, rfl⟩ := runs_done.mp h
      simp [hd]
    | some found =>
      simp only [Option.elim_some, hd] at h
      obtain ⟨_, rfl, rfl⟩ := runs_done.mp h
      simp [hd]

theorem saveIndex_faithful {keys : Finset Text} {out : Except Text Unit}
    (h : Runs Faithful (saveIndex server keys) vault t out vault') :
    out = .ok () ∧ ∃ order : List Text, order.toFinset = keys ∧
      vault' = put vault (service server) indexUser (some (encodeNames order)) := by
  obtain ⟨rest, h⟩ := indexEntry_faithful h
  obtain ⟨⟨order, horder⟩, mid, rest, _, hmid, hwrite⟩ := runs_calling h
  obtain rfl : mid = vault := hmid
  obtain ⟨ans, v, rest, _, ⟨rfl, rfl⟩, hdone⟩ := runs_calling hwrite
  obtain ⟨_, rfl, rfl⟩ := runs_done.mp hdone
  exact ⟨rfl, order, horder.1, rfl⟩

theorem get_faithful {out : Except Text (Option Text)}
    (h : Runs Faithful (get server key) vault t out vault') :
    out = .ok (stored vault server key) ∧ vault' = vault := by
  obtain ⟨rest, h⟩ := entry_faithful h
  obtain ⟨ans, v, rest, rfl, ⟨rfl, rfl⟩, h⟩ := runs_calling h
  rw [stored]
  cases hp : v (service server) key with
  | none =>
    rw [hp] at h
    obtain ⟨_, rfl, rfl⟩ := runs_done.mp h
    exact ⟨rfl, rfl⟩
  | some text =>
    rw [hp] at h
    obtain ⟨_, rfl, rfl⟩ := runs_done.mp h
    exact ⟨rfl, rfl⟩

theorem listNames_faithful {out : Except Text (List Text)}
    (h : Runs Faithful (listNames server) vault t out vault') :
    out = .ok ((listed vault server).sort (· ≤ ·)) ∧ vault' = vault := by
  obtain ⟨t₁, t₂, names, mid, rfl, hload, hrest⟩ := runs_bind.mp h
  obtain ⟨rfl, rfl⟩ := loadIndex_faithful hload
  obtain ⟨_, rfl, rfl⟩ := runs_done.mp hrest
  exact ⟨rfl, rfl⟩

theorem set_faithful {value : Text} {out : Except Text Unit}
    (h : Runs Faithful (set server key value) vault t out vault') :
    out = .ok () ∧ ∃ order : List Text,
      order.toFinset = insert key (listed (put vault (service server) key (some value)) server) ∧
      vault' = put (put vault (service server) key (some value)) (service server) indexUser
        (some (encodeNames order)) := by
  obtain ⟨rest, h⟩ := entry_faithful h
  obtain ⟨ans, v, rest, rfl, ⟨rfl, rfl⟩, h⟩ := runs_calling h
  obtain ⟨t₁, t₂, names, mid, rfl, hload, h⟩ := runs_bind.mp h
  obtain ⟨rfl, rfl⟩ := loadIndex_faithful hload
  exact saveIndex_faithful h

theorem delete_faithful {out : Except Text Unit}
    (h : Runs Faithful (delete server key) vault t out vault') :
    out = .ok () ∧ ∃ order : List Text,
      order.toFinset = (listed (put vault (service server) key none) server).erase key ∧
      vault' = put (put vault (service server) key none) (service server) indexUser
        (some (encodeNames order)) := by
  obtain ⟨t₁, t₂, ⟨⟩, mid, rfl, hdrop, h⟩ := runs_bind.mp h
  obtain ⟨rest, hdrop⟩ := entry_faithful hdrop
  obtain ⟨ans, v, rest, rfl, ⟨_, rfl⟩, hdrop⟩ := runs_calling hdrop
  obtain ⟨_, _, rfl⟩ := runs_done.mp hdrop
  obtain ⟨t₁, t₂, names, mid', rfl, hload, h⟩ := runs_bind.mp h
  obtain ⟨rfl, rfl⟩ := loadIndex_faithful hload
  obtain ⟨t₁, t₂, saved, mid, rfl, hsave, h⟩ := runs_bind.mp h
  obtain ⟨_, rfl, rfl⟩ := runs_done.mp h
  exact ⟨rfl, (saveIndex_faithful hsave).2⟩

theorem faithful_total (vault : Vault) (op : KeyringOp) :
    ∃ ans vault', Faithful vault op ans vault' := by
  cases op with
  | iterate keys =>
    exact ⟨⟨keys.sort (· ≤ ·), keys.sort_toFinset _, keys.sort_nodup _⟩, vault, rfl⟩
  | _ => exact ⟨_, _, rfl, rfl⟩

theorem answers_get (vault : Vault) (server key : Text) (out : Except Text (Option Text)) :
    Answers (get server key) vault out ↔ out = .ok (stored vault server key) := by
  constructor
  · rintro ⟨t, vault', h⟩
    exact (get_faithful h).1
  · rintro rfl
    obtain ⟨t, out, vault', h⟩ := runs_total faithful_total (get server key) vault
    exact ⟨t, vault', (get_faithful h).1 ▸ h⟩

theorem answers_listNames (vault : Vault) (server : Text) (out : Except Text (List Text)) :
    Answers (listNames server) vault out ↔ out = .ok ((listed vault server).sort (· ≤ ·)) := by
  constructor
  · rintro ⟨t, vault', h⟩
    exact (listNames_faithful h).1
  · rintro rfl
    obtain ⟨t, out, vault', h⟩ := runs_total faithful_total (listNames server) vault
    exact ⟨t, vault', (listNames_faithful h).1 ▸ h⟩

def Lists (server key : Text) (vault : Vault) : Prop :=
  ∃ names, Answers (listNames server) vault (.ok names) ∧ key ∈ names

theorem lists_iff {server key : Text} {vault : Vault} :
    Lists server key vault ↔ key ∈ listed vault server := by
  simp only [Lists, answers_listNames, Except.ok.injEq, exists_eq_left, Finset.mem_sort]

end Specifications

section Refinement

inductive Command where
  | set (server key value : Text)
  | delete (server key : Text)

def Command.server : Command → Text
  | .set server _ _ | .delete server _ => server

def Command.key : Command → Text
  | .set _ key _ | .delete _ key => key

def Command.program : Command → KeyringProg (Except Text Unit)
  | .set server key value => KeyringModel.set server key value
  | .delete server key => KeyringModel.delete server key

inductive Session : Vault → List Command → Vault → Prop
  | nil (vault : Vault) : Session vault [] vault
  | cons {vault mid vault' : Vault} {command : Command} {rest : List Command}
      {t : List (Exchange keyringOps)} {out : Except Text Unit} :
      Runs Faithful command.program vault t out mid → Session mid rest vault' →
      Session vault (command::rest) vault'

abbrev Credentials := Text → Text → Option Text

def Command.apply (credentials : Credentials) : Command → Credentials
  | .set server key value => put credentials server key (some value)
  | .delete server key => put credentials server key none

def credentials (commands : List Command) : Credentials :=
  commands.foldl Command.apply fun _ _ => none

/-- Every key but the reserved one is as in the map, and the names are its keys. -/
structure Represents (vault : Vault) (m : Credentials) : Prop where
  values : ∀ s k, k ≠ indexUser → stored vault s k = m s k
  names : ∀ s k, k ∈ listed vault s ↔ (m s k).isSome
  reserved : ∀ s, m s indexUser = none

theorem represents_empty : Represents (fun _ _ => none) (fun _ _ => none) := by
  constructor
  · intro s k _
    rfl
  · intro s k
    simp [listed]
  · intro s
    rfl

theorem represents_put {vault : Vault} {m : Credentials} (h : Represents vault m)
    {server key : Text} (hk : key ≠ indexUser) (password : Option Text) {order : List Text}
    (horder : ∀ k, k ∈ order ↔ (put m server key password server k).isSome) :
    Represents (put (put vault (service server) key password) (service server) indexUser
      (some (encodeNames order))) (put m server key password) := by
  constructor
  · intro s k hindex
    by_cases hs : s = server
    · subst hs
      rw [stored, put_user _ _ hindex]
      by_cases hkey : k = key
      · subst hkey
        rw [put_same, put_same]
      · rw [put_user _ _ hkey, put_user _ _ hkey]
        exact h.values s k hindex
    · have hservice : service s ≠ service server := fun heq => hs (service_injective heq)
      rw [stored, put_service _ hservice, put_service _ hservice, put_service _ hs]
      exact h.values s k hindex
  · intro s k
    by_cases hs : s = server
    · subst hs
      rw [listed_index, List.mem_toFinset]
      exact horder k
    · rw [listed_service _ hs, listed_service _ hs, put_service _ hs]
      exact h.names s k
  · intro s
    by_cases hs : s = server
    · subst hs
      rw [put_user _ _ hk.symm]
      exact h.reserved s
    · rw [put_service _ hs]
      exact h.reserved s

theorem represents_step {vault vault' : Vault} {m : Credentials} (h : Represents vault m)
    {command : Command} (hk : command.key ≠ indexUser) {t : List (Exchange keyringOps)}
    {out : Except Text Unit} (hr : Runs Faithful command.program vault t out vault') :
    Represents vault' (command.apply m) := by
  cases command with
  | set server key value =>
    have hindex : key ≠ indexUser := hk
    obtain ⟨_, order, horder, rfl⟩ := set_faithful hr
    apply represents_put h hindex
    intro k
    rw [← List.mem_toFinset, horder, listed_user _ _ hindex.symm, Finset.mem_insert, h.names]
    by_cases hkey : k = key
    · subst hkey
      simp [put_same]
    · simp [put_user _ _ hkey, hkey]
  | delete server key =>
    have hindex : key ≠ indexUser := hk
    obtain ⟨_, order, horder, rfl⟩ := delete_faithful hr
    apply represents_put h hindex
    intro k
    rw [← List.mem_toFinset, horder, listed_user _ _ hindex.symm, Finset.mem_erase, h.names]
    by_cases hkey : k = key
    · subst hkey
      simp [put_same]
    · simp [put_user _ _ hkey, hkey]

theorem represents_session {vault vault' : Vault} {commands : List Command}
    (hs : Session vault commands vault') (hk : ∀ c ∈ commands, c.key ≠ indexUser)
    {m : Credentials} (h : Represents vault m) :
    Represents vault' (commands.foldl Command.apply m) := by
  induction hs generalizing m with
  | nil vault => exact h
  | cons hr _ ih =>
    obtain ⟨hkey, hrest⟩ := List.forall_mem_cons.mp hk
    exact ih hrest (represents_step h hkey hr)

theorem session_exists (vault : Vault) (commands : List Command) :
    ∃ vault', Session vault commands vault' := by
  induction commands generalizing vault with
  | nil => exact ⟨vault, .nil vault⟩
  | cons command rest ih =>
    obtain ⟨t, out, mid, hr⟩ := runs_total faithful_total command.program vault
    obtain ⟨vault', hrest⟩ := ih mid
    exact ⟨vault', .cons hr hrest⟩

theorem step_index {vault vault' : Vault} {command : Command} {t : List (Exchange keyringOps)}
    {out : Except Text Unit} (hr : Runs Faithful command.program vault t out vault') :
    (∃ text, stored vault' command.server indexUser = some text) ∧
      ∀ s, s ≠ command.server → stored vault' s indexUser = stored vault s indexUser := by
  have hboth : ∀ (server key : Text) (password text : Option Text), text ≠ none →
      vault' = put (put vault (service server) key password) (service server) indexUser text →
      (∃ text, stored vault' server indexUser = some text) ∧
        ∀ s, s ≠ server → stored vault' s indexUser = stored vault s indexUser := by
    rintro server key password text htext rfl
    constructor
    · rw [stored, put_same]
      exact Option.ne_none_iff_exists'.mp htext
    · intro s hs
      have hservice : service s ≠ service server := fun heq => hs (service_injective heq)
      rw [stored, put_service _ hservice, put_service _ hservice, stored]
  cases command with
  | set server key value =>
    obtain ⟨_, order, _, heq⟩ := set_faithful hr
    exact hboth server key _ _ (by simp) heq
  | delete server key =>
    obtain ⟨_, order, _, heq⟩ := delete_faithful hr
    exact hboth server key _ _ (by simp) heq

theorem session_index {vault vault' : Vault} {commands : List Command} {s : Text}
    (hs : Session vault commands vault') :
    stored vault' s indexUser = none ↔
      stored vault s indexUser = none ∧ ∀ c ∈ commands, c.server ≠ s := by
  induction hs with
  | nil vault => simp
  | @cons vault mid vault' command rest t out hr _ ih =>
    obtain ⟨⟨text, htext⟩, hother⟩ := step_index hr
    rw [ih, List.forall_mem_cons]
    by_cases hserver : s = command.server
    · subst hserver
      simp [htext]
    · simp [hother s hserver, Ne.symm hserver]

/-- For every key but the reserved one the store is a map from keys to values,
and the names are the keys it has. A read of the reserved key shows the names
instead, as soon as there was any command for the server. -/
theorem keyring_refines (commands : List Command) (vault : Vault)
    (h : Session (fun _ _ => none) commands vault) (hk : ∀ c ∈ commands, c.key ≠ indexUser) :
    (∀ s k, k ≠ indexUser → ∀ out, Answers (get s k) vault out ↔
      out = .ok (credentials commands s k)) ∧
    (∀ s, ∃ names : List Text, (∀ out, Answers (listNames s) vault out ↔ out = .ok names) ∧
      names.Pairwise (· ≤ ·) ∧ names.Nodup ∧
      ∀ k, k ∈ names ↔ k ≠ indexUser ∧ ∃ value, Answers (get s k) vault (.ok (some value))) ∧
    ∀ s, Answers (get s indexUser) vault (.ok (credentials commands s indexUser)) ↔
      ∀ c ∈ commands, c.server ≠ s := by
  have hrep := represents_session h hk represents_empty
  refine ⟨?_, ?_, ?_⟩
  · intro s k hindex out
    rw [answers_get, hrep.values s k hindex]
    rfl
  · intro s
    refine ⟨(listed vault s).sort (· ≤ ·), answers_listNames vault s, Finset.pairwise_sort _ _,
      Finset.sort_nodup _ _, fun k => ?_⟩
    rw [Finset.mem_sort, hrep.names]
    by_cases hindex : k = indexUser
    · subst hindex
      simp [hrep.reserved s]
    · simp only [answers_get, hrep.values s k hindex, Except.ok.injEq, ne_eq, hindex,
        not_false_eq_true, true_and]
      rw [Option.isSome_iff_exists]
      exact exists_congr fun value => eq_comm
  · intro s
    rw [answers_get, show credentials commands s indexUser = none from hrep.reserved s]
    simp only [Except.ok.injEq]
    rw [eq_comm, session_index h]
    simp [stored]

theorem keyring_refines_token :
    ∃ vault, Session (fun _ _ => none)
        [.set "db".toList "token".toList "t1".toList, .delete "web".toList "token".toList] vault ∧
      Answers (get "db".toList "token".toList) vault (.ok (some "t1".toList)) := by
  obtain ⟨vault, h⟩ := session_exists (fun _ _ => none)
    [.set "db".toList "token".toList "t1".toList, .delete "web".toList "token".toList]
  have hmap := (keyring_refines _ vault h (by
    intro c hc
    rcases List.mem_pair.mp hc with rfl | rfl
    · exact (by decide : "token".toList ≠ indexUser)
    · exact (by decide : "token".toList ≠ indexUser))).1
  exact ⟨vault, h, (hmap "db".toList "token".toList (by decide) _).mpr rfl⟩

/-- A credential that is named like the reserved entry is lost, and the names
of all others with it. -/
theorem reserved_key_collides :
    ∃ vault, Session (fun _ _ => none)
        [.set "db".toList "token".toList "t1".toList, .set "db".toList indexUser "x".toList] vault ∧
      ¬ Answers (get "db".toList indexUser) vault (.ok (credentials
        [.set "db".toList "token".toList "t1".toList, .set "db".toList indexUser "x".toList]
        "db".toList indexUser)) ∧
      Answers (get "db".toList "token".toList) vault (.ok (some "t1".toList)) ∧
      ∃ names, Answers (listNames "db".toList) vault (.ok names) ∧ "token".toList ∉ names := by
  obtain ⟨vault, h⟩ := session_exists (fun _ _ => none)
    [.set "db".toList "token".toList "t1".toList, .set "db".toList indexUser "x".toList]
  refine ⟨vault, h, ?_⟩
  cases h with
  | cons hfirst h =>
  cases h with
  | cons hsecond h =>
  cases h
  obtain ⟨_, first, _, rfl⟩ := set_faithful hfirst
  obtain ⟨_, order, horder, rfl⟩ := set_faithful hsecond
  -- what was stored is no array of names, so all names are taken to be gone
  have hnone : ∀ v : Vault, listed (put v (service "db".toList) indexUser (some "x".toList))
      "db".toList = ∅ := by
    intro v
    rw [listed, put_same]
    decide
  rw [hnone] at horder
  refine ⟨?_, ?_, _, (answers_listNames _ _ _).mpr rfl, ?_⟩
  · rw [answers_get, stored, put_same]
    intro h
    have htext : some "x".toList = some (encodeNames order) := Except.ok.inj h
    simp [encodeNames, render] at htext
  · rw [answers_get, stored, put_user _ _ (by decide), put_user _ _ (by decide),
      put_user _ _ (by decide), put_same]
  · rw [Finset.mem_sort, listed_index, horder]
    decide

end Refinement

end FaninMcp.KeyringRefinement
