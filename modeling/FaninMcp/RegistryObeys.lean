import FaninMcp.RegistryWalk

/-!
# Registry calls obey the protocol

One lemma for each program, from the scope of an attempt up to the whole calls.
A connection attempt and a refetch may be cut short by their timers wherever
they wait, so what is said about them holds at each of those points.
-/

set_option autoImplicit false

namespace FaninMcp.RegistryObeys
open Foundation.RustText Foundation.JsonText Foundation.AsyncPrograms FaninMcp.ConfigModel
  FaninMcp.ErrorModel FaninMcp.RegistryModel FaninMcp.RegistryProtocol FaninMcp.RegistryWalk

section Attempts
variable {server : Text} {φ : Trail}

/-- An attempt leaves the guard and what was seen behind it alone. -/
structure Attempting (φ ψ : Trail) : Prop where
  locks : ψ.locks = φ.locks
  named : ψ.named = φ.named
  absent : ψ.absent = φ.absent
  attempt : ψ.attempt = φ.attempt
  refetch : ψ.refetch = φ.refetch

theorem resolution_quiet (op : Op) (h : isResolution op = true) :
    may φ op ∧ ∀ ans, after φ op ans = φ := by
  cases op <;> first | exact ⟨trivial, fun _ => rfl⟩ | cases h

theorem obeys_timed {α : Type} {post : Option α → Trail → Prop} {p : RegistryProg α}
    (h : Obeys (registryProtocol.within fun ψ => post none ψ) (fun a ψ => post (some a) ψ) p φ) :
    Obeys registryProtocol post (timed p) φ :=
  obeys_interruptible (fun _ => trivial) (fun _ _ => rfl) (obeys_bind h)

theorem attempting_refl : Attempting φ φ := ⟨rfl, rfl, rfl, rfl, rfl⟩

theorem within_quiet {I : Trail → Prop} (hφ : I φ) (op : Op) (h : isResolution op = true) :
    (registryProtocol.within I).may φ op ∧
      ∀ ans, (registryProtocol.within I).after φ op ans = φ :=
  ⟨⟨(resolution_quiet op h).1, hφ⟩, (resolution_quiet op h).2⟩

theorem obeys_startService (config : ServerConfig) (env headers : TextMap Text) {I : Trail → Prop}
    (hI : ∀ ψ, Attempting φ ψ → I ψ) (hφ : φ.attempt = some server) :
    Obeys (registryProtocol.within I)
      (Comes (fun entry ψ => Attempting φ ψ ∧ ψ.serving = some entry.1) fun _ => Attempting φ)
      (startService server config env headers) φ := by
  have hhere := hI φ attempting_refl
  refine startService_walk config env headers
    (fun op hop => within_quiet hhere op (preparation_resolution hop)) (fun _ => attempting_refl)
    ⟨⟨hφ, hhere⟩, fun _ => rfl⟩ (fun _ _ _ => ⟨trivial, hhere⟩) ⟨⟨hφ, hhere⟩, fun out => ?_⟩
  cases out with
  | error e => exact attempting_refl
  | ok entry => exact ⟨⟨rfl, rfl, rfl, rfl, rfl⟩, rfl⟩

theorem obeys_connect (config : ServerConfig) (env headers : TextMap Text) {I : Trail → Prop}
    (hI : ∀ ψ, Attempting φ ψ → I ψ) (hφ : φ.attempt = some server) :
    Obeys (registryProtocol.within I)
      (Comes (fun entry ψ => Attempting φ ψ ∧ ψ.built = some entry.1) fun _ => Attempting φ)
      (connect server config env headers) φ := by
  refine obeys_except (obeys_startService config env headers hI hφ) (fun _ _ hψ => hψ) ?_
  rintro entry ψ ⟨hψ, hserving⟩
  refine ⟨⟨Or.inl hserving, hI ψ hψ⟩, fun _ => ⟨⟨rfl, hI _ ?_⟩, fun reply => ?_⟩⟩
  · exact ⟨hψ.locks, hψ.named, hψ.absent, hψ.attempt, hψ.refetch⟩
  · have hreply : Attempting φ (after { ψ with asked := some entry.1, fetched := none }
        (.listReply entry.1) reply) := by
      cases reply <;> exact ⟨hψ.locks, hψ.named, hψ.absent, hψ.attempt, hψ.refetch⟩
    cases reply with
    | error e => exact hreply
    | ok tools =>
      refine ⟨⟨⟨hserving, rfl⟩, hI _ hreply⟩, fun _ => ⟨?_, rfl⟩⟩
      exact ⟨hψ.locks, hψ.named, hψ.absent, hψ.attempt, hψ.refetch⟩

/-- After an attempt the task is where it was, with a connection or without. -/
structure Attempted (φ ψ : Trail) : Prop where
  locks : ψ.locks = φ.locks
  named : ψ.named = φ.named
  absent : ψ.absent = φ.absent
  attempt : ψ.attempt = none
  refetch : ψ.refetch = none

theorem obeys_attempt (config : ServerConfig) (env headers : TextMap Text)
    (habsent : φ.absent = some server) (hattempt : φ.attempt = none) (hrefetch : φ.refetch = none) :
    Obeys registryProtocol
      (Comes (fun entry ψ => Attempted φ ψ ∧ ψ.built = some entry.1) fun _ => Attempted φ)
      (attempt server config env headers) φ := by
  have hend : ∀ ψ, Attempting { φ with attempt := some server } ψ →
      Attempted φ (after ψ (.connectEnd server) ()) :=
    fun ψ hψ => ⟨hψ.locks, hψ.named, hψ.absent, rfl, hψ.refetch.trans hrefetch⟩
  rw [attempt_eq]
  refine ⟨⟨habsent, hattempt, hrefetch⟩, fun _ => obeys_bind (obeys_timed (obeys_mono
    (fun out ψ hψ => ?_) (obeys_connect config env headers (fun ψ hψ => ?_) rfl)))⟩
  · cases out with
    | error e => exact ⟨hψ.attempt, fun _ => hend ψ hψ⟩
    | ok entry => exact ⟨hψ.1.attempt, fun _ => ⟨hend ψ hψ.1, hψ.2⟩⟩
  · exact ⟨hψ.attempt, fun _ => hend ψ hψ⟩

end Attempts

section Calls
variable {server : Text} {φ : Trail}

structure Guarded (server : Text) (guard : ℕ) (φ : Trail) : Prop where
  locks : φ.locks = [.init guard]
  named : φ.named = some (server, guard)
  absent : φ.absent = none
  attempt : φ.attempt = none
  refetch : φ.refetch = none

structure Decided (guard : ℕ) (φ : Trail) : Prop where
  locks : φ.locks = [.init guard]
  attempt : φ.attempt = none
  refetch : φ.refetch = none

theorem obeys_insert {guard : ℕ} (entry : EntryOf server) (hl : φ.locks = [.init guard])
    (habsent : φ.absent = some server) (hattempt : φ.attempt = none) (hrefetch : φ.refetch = none)
    (hbuilt : φ.built = some entry.1) :
    Obeys registryProtocol (fun _ ψ => Decided guard ψ ∧ ψ.got = some entry.1)
      (withLock .entriesWrite (doing (.entriesInsert server entry))) φ := by
  refine obeys_withLock (by simp [may, hl, isInit]) ⟨?_, fun _ => ⟨?_, ?_⟩⟩
  · exact ⟨by simp [Trail.enter], habsent, hbuilt, hattempt⟩
  · exact ⟨by simp [after, Trail.enter], fun h => by cases h⟩
  · refine ⟨⟨?_, hattempt, hrefetch⟩, rfl⟩
    simp [after, Trail.leave, Trail.enter, hl]

theorem obeys_connectAbsent (config : TomlConfig) {guard : ℕ} (hl : φ.locks = [.init guard])
    (habsent : φ.absent = some server) (hattempt : φ.attempt = none) (hrefetch : φ.refetch = none) :
    Obeys registryProtocol
      (Comes (fun entry ψ => Decided guard ψ ∧ ψ.got = some entry.1) fun _ => Decided guard)
      (connectAbsent config server) φ := by
  have hdecided : Decided guard φ := ⟨hl, hattempt, hrefetch⟩
  have hattempted : ∀ serverConfig env headers, Obeys registryProtocol
      (Comes (fun entry ψ => Attempted φ ψ ∧ ψ.built = some entry.1) fun _ => Decided guard)
      (attempt server serverConfig env headers) φ := by
    refine fun serverConfig env headers => obeys_mono (fun out ψ hψ => ?_)
      (obeys_attempt serverConfig env headers habsent hattempt hrefetch)
    cases out with
    | error e => exact ⟨hψ.locks.trans hl, hψ.attempt, hψ.refetch⟩
    | ok entry => exact hψ
  refine connectAbsent_walk resolution_quiet (fun _ => hdecided) (fun _ => hdecided)
    (fun _ => hdecided) (fun serverConfig env headers _ => hattempted serverConfig env headers) ?_
  rintro entry ψ ⟨hsame, hbuilt⟩
  exact obeys_insert entry (hsame.locks.trans hl) (hsame.absent.trans habsent) hsame.attempt
    hsame.refetch hbuilt

theorem obeys_connectGuarded (config : TomlConfig) {guard : ℕ} (h : Guarded server guard φ) :
    Obeys registryProtocol
      (Comes (fun entry ψ => Decided guard ψ ∧ ψ.got = some entry.1) fun _ => Decided guard)
      (connectGuarded config server) φ := by
  have hguarding : φ.guarding server = true := by simp [Trail.guarding, h.named, h.locks]
  have hlookup : Obeys registryProtocol
      (Finds (fun entry ψ => Decided guard ψ ∧ ψ.got = some entry.1)
        fun ψ => ψ = { φ with absent := some server }) (lookupEntry server) φ := by
    refine obeys_lookupEntry (by simp [h.locks, isInit]) fun found => ?_
    cases found with
    | some entry => exact ⟨⟨h.locks, h.attempt, h.refetch⟩, rfl⟩
    | none => simp [Finds, after, hguarding]
  refine connectGuarded_walk hlookup ?_
  rintro _ rfl
  exact obeys_connectAbsent config h.locks rfl h.attempt h.refetch

/-- The call leaves nothing locked, whatever it comes to, and an entry it
returns is one it found or inserted. -/
theorem obeys_getOrConnect (config : TomlConfig) (h : Clean φ) :
    Obeys registryProtocol (Comes (fun entry => OnEntry entry.1) fun _ => Clean)
      (getOrConnect config server) φ := by
  have hlookup : Obeys registryProtocol (Finds (fun entry => OnEntry entry.1) (· = φ))
      (lookupEntry server) φ := by
    refine obeys_lookupEntry (by simp [h.locks]) fun found => ?_
    cases found with
    | some entry => exact ⟨⟨h.locks, h.absent, h.attempt, h.refetch⟩, rfl⟩
    | none =>
      have hguarding : φ.guarding server = false := by
        simp only [Trail.guarding, h.locks]
        cases φ.named <;> simp
      simp [Finds, after, hguarding]
  have hguard : ∀ ψ, ψ = φ → Obeys registryProtocol
      (fun guard ψ => ψ.locks = [] ∧ Guarded server guard (ψ.enter (.init guard)))
      (withLock .initGuards (doing (.guardEntry server))) ψ := by
    intro ψ hψ
    rw [hψ]
    refine obeys_withLock (by simp [may, h.locks]) ⟨?_, fun guard => ⟨?_, ?_⟩⟩
    · exact ⟨by simp [Trail.enter, h.locks], h.absent⟩
    · exact ⟨by simp [after, Trail.enter], fun hi => by cases hi⟩
    · have hlocks : (((after (φ.enter .initGuards) (.guardEntry server) guard).leave
          .initGuards)).locks = [] := by
        simp [after, Trail.enter, Trail.leave, h.locks]
      exact ⟨hlocks, congrArg (Lock.init guard :: ·) hlocks, rfl, h.absent, h.attempt, h.refetch⟩
  refine getOrConnect_walk hlookup hguard fun guard ψ hψ => ?_
  obtain ⟨hlocks, hguarded⟩ := hψ
  have hleave : ∀ χ, Decided guard χ → (Lock.init guard ∈ χ.locks ∧
      (isInit (.init guard) = true → χ.attempt = none)) ∧ Clean (χ.leave (.init guard)) := by
    refine fun χ hχ => ⟨⟨by simp [hχ.locks], fun _ => hχ.attempt⟩, ?_, ?_, hχ.attempt, hχ.refetch⟩
    · simp [Trail.leave, hχ.locks]
    · simp [Trail.leave, isInit]
  refine obeys_withLock ⟨hlocks, server, hguarded.named⟩ (obeys_mono (fun out χ hχ => ?_)
    (obeys_connectGuarded config hguarded))
  cases out with
  | error e => exact hleave χ hχ
  | ok entry => exact ⟨(hleave χ hχ.1).1, (hleave χ hχ.1).2, hχ.2⟩

/-- A refresh that has cleared the flag, and neither installed nor restored. -/
structure Refetching (entry : Entry) (φ : Trail) : Prop where
  locks : φ.locks = []
  absent : φ.absent = none
  attempt : φ.attempt = none
  refetch : φ.refetch = some entry
  got : φ.got = some entry

theorem obeys_fetchTools {entry : Entry} {I : Trail → Prop} (hI : ∀ ψ, Refetching entry ψ → I ψ)
    (h : Refetching entry φ) :
    Obeys (registryProtocol.within I)
      (fun out ψ => Refetching entry ψ ∧ ∀ fresh, out = .ok fresh → ψ.fetched = some (entry, fresh))
      (fetchTools entry) φ := by
  obtain ⟨hl, ha, ht, hr, hg⟩ := h
  refine ⟨⟨Or.inr hr, hI φ ⟨hl, ha, ht, hr, hg⟩⟩, fun _ => ⟨⟨rfl, hI _ ⟨hl, ha, ht, hr, hg⟩⟩,
    fun reply => ?_⟩⟩
  cases reply with
  | error e => exact ⟨⟨hl, ha, ht, hr, hg⟩, fun fresh h => by cases h⟩
  | ok fresh =>
    refine ⟨⟨hl, ha, ht, hr, hg⟩, ?_⟩
    rintro _ ⟨⟩
    rfl

/-- However a refresh ends, the task is with its entry, and holds nothing. -/
abbrev Refreshed (entry : Entry) : Outcome Unit → Trail → Prop :=
  Comes (fun _ => OnEntry entry) fun _ => Clean

theorem obeys_restore {entry : Entry} (h : Refetching entry φ) (outcome : Outcome Unit) :
    Obeys registryProtocol (Refreshed entry) (do
      doing (.storeDirty entry)
      return outcome) φ := by
  have hclean : Clean { φ with refetch := none } := ⟨h.locks, h.absent, h.attempt, rfl⟩
  refine ⟨h.refetch, fun _ => ?_⟩
  cases outcome with
  | error e => exact hclean
  | ok _ => exact ⟨hclean, h.got⟩

theorem obeys_install {entry : Entry} {fresh : Listing} (h : Refetching entry φ)
    (hf : φ.fetched = some (entry, fresh)) :
    Obeys registryProtocol (Refreshed entry) (do
      withLock (.toolsWrite entry) (doing (.writeTools entry fresh))
      return .ok ()) φ := by
  refine obeys_bind (obeys_withLock (by simp [may, h.locks]) ⟨?_, fun _ => ⟨?_, ?_⟩⟩)
  · exact ⟨h.refetch, hf, by simp [Trail.enter]⟩
  · exact ⟨by simp [after, Trail.enter], fun hi => by cases hi⟩
  · refine ⟨⟨?_, ?_, h.attempt, rfl⟩, h.got⟩
    · simp [after, Trail.leave, Trail.enter, h.locks]
    · simp [after, Trail.leave, Trail.enter, isInit, h.absent]

/-- A refresh that clears the flag installs what it fetched or sets the flag
again, before it returns. -/
theorem obeys_ensureFresh {entry : Entry} (h : OnEntry entry φ) :
    Obeys registryProtocol (Refreshed entry) (ensureFresh entry server) φ := by
  obtain ⟨hclean, hgot⟩ := h
  refine ⟨⟨hgot, hclean.refetch, hclean.locks⟩, fun dirty => ?_⟩
  cases dirty with
  | false => exact ⟨hclean, hgot⟩
  | true =>
    refine ⟨⟨hgot, hclean.refetch, hclean.attempt⟩, fun was => ?_⟩
    cases was with
    | false => exact ⟨hclean, hgot⟩
    | true =>
      have hswapped : Refetching entry
          { φ with refetch := some entry, asked := none, fetched := none } :=
        ⟨hclean.locks, hclean.absent, hclean.attempt, rfl, hgot⟩
      refine obeys_bind (p := timed (fetchTools entry)) (obeys_timed (obeys_mono
        (fun out ψ hψ => ?_) (obeys_fetchTools (fun ψ hψ => ?_) hswapped)))
      · cases out with
        | error e => exact obeys_restore hψ.1 _
        | ok fresh => exact obeys_install hψ.1 (hψ.2 fresh rfl)
      · exact obeys_restore hψ _

theorem obeys_readInventory {entry : Entry} (h : OnEntry entry φ) :
    Obeys registryProtocol (fun _ => OnEntry entry) (readInventory entry) φ := by
  obtain ⟨hclean, hgot⟩ := h
  refine obeys_withLock (by simp [may, hclean.locks]) ⟨?_, fun _ => ⟨?_, ?_⟩⟩
  · exact ⟨hgot, hclean.refetch, by simp [Trail.enter]⟩
  · exact ⟨by simp [after, Trail.enter], fun hi => by cases hi⟩
  · refine ⟨⟨?_, ?_, hclean.attempt, hclean.refetch⟩, hgot⟩
    · simp [after, Trail.leave, Trail.enter, hclean.locks]
    · simp [after, Trail.leave, Trail.enter, isInit, hclean.absent]

theorem obeys_inventory (config : TomlConfig) (h : Clean φ) :
    Obeys registryProtocol (Comes (fun _ => Clean) fun _ => Clean) (inventory config server) φ :=
  inventory_walk (obeys_getOrConnect config h) (fun _ _ => obeys_ensureFresh)
    (fun _ _ => obeys_readInventory) fun _ _ _ hψ => hψ.1

theorem obeys_forwardCall {entry : Entry} {tool : Text} {arguments : Option JsonObject}
    {I : Trail → Prop} (hI : I φ) (h : OnEntry entry φ) :
    Obeys (registryProtocol.within I) (fun _ ψ => ψ = φ) (forwardCall entry tool arguments) φ := by
  have hmay : φ.got = some entry ∧ φ.refetch = none ∧ φ.locks = [] :=
    ⟨h.2, h.1.refetch, h.1.locks⟩
  exact ⟨⟨hmay, hI⟩, fun _ => ⟨⟨hmay, hI⟩, fun _ => rfl⟩⟩

theorem obeys_callTool (config : TomlConfig) (tool : Text) (arguments : Option JsonObject)
    (h : Clean φ) :
    Obeys registryProtocol (Comes (fun _ => Clean) fun _ => Clean)
      (callTool config server tool arguments) φ := by
  refine callTool_walk (obeys_getOrConnect config h) (fun _ _ => obeys_ensureFresh)
    (fun _ _ => obeys_readInventory) (fun _ _ _ hψ => hψ.1) fun entry _ ψ hψ _ => ?_
  have hclean : ∀ out, Called server tool (fun _ => Clean) (fun _ => Clean) out ψ := by
    rintro (_ | e | result) <;> exact hψ.1
  exact obeys_timed (obeys_mono (fun out _ hsame => hsame ▸ hclean (some out))
    (obeys_forwardCall (hclean none) hψ))

/-- What a finished call leaves behind: nothing held or owed, and the entry of
a successful connection. -/
structure Served (call : Call) (reply : Answer) (φ : Trail) : Prop where
  clean : Clean φ
  connected : ∀ server entry, call = .connect server → reply = .entry (.ok entry) →
    entry.server = server ∧ φ.got = some entry

theorem obeys_serveCall (config : TomlConfig) (call : Call) :
    Obeys registryProtocol (Served call) (serveCall config call) {} := by
  cases call with
  | connect server =>
    refine obeys_bind (obeys_mono (fun out ψ hψ => ?_) (obeys_getOrConnect config clean_idle))
    cases out with
    | error e => exact ⟨hψ, fun other entry _ he => by cases he⟩
    | ok found =>
      refine ⟨hψ.1, fun other entry hs he => ?_⟩
      cases hs
      cases he
      exact ⟨found.2, hψ.2⟩
  | inventory server =>
    refine obeys_bind (obeys_mono (fun out ψ hψ => ⟨comes_same.mp hψ, fun other entry hs => ?_⟩)
      (obeys_inventory config clean_idle))
    cases hs
  | callTool server tool arguments =>
    refine obeys_bind (obeys_mono (fun out ψ hψ => ⟨comes_same.mp hψ, fun other entry hs => ?_⟩)
      (obeys_callTool config tool arguments clean_idle))
    cases hs

end Calls

end FaninMcp.RegistryObeys
