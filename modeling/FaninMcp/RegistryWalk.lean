import FaninMcp.MetaTools
import FaninMcp.RegistryProtocol

/-!
# A walk through the registry's calls

The calls of the registry are put together from a few parts: looking an entry up,
resolving, an attempt, a refresh, a read, a forwarded call. What a protocol makes of
each part it makes of the whole. An error of any part ends the call, so one condition
on errors goes with every walk.
-/

set_option autoImplicit false

namespace FaninMcp.RegistryWalk
open Foundation.RustText Foundation.JsonText Foundation.AsyncPrograms FaninMcp.ConfigModel
  FaninMcp.ErrorModel FaninMcp.NamespaceAcl FaninMcp.RegistryModel FaninMcp.RegistryProtocol
  FaninMcp.MetaTools

variable {P : Protocol registryOps} {φ : P.Phase} {config : TomlConfig} {server : Text}
  {bad : ToolError → P.Phase → Prop}

section Operations
variable {α : Type} {Q : Op → Prop} {E : ToolError → Prop}

theorem fails_only {p : RegistryProg (Outcome α)} :
    Obeys (Protocol.only Q) (Comes (fun _ _ => True) fun e _ => E e) p () ↔ p.All Q (Fails E) := by
  rw [← obeys_only]
  refine ⟨obeys_mono fun out _ h => ?_, obeys_mono fun out _ h => ?_⟩
  · cases out with
    | error e => exact fails_error h
    | ok a => exact fails_ok a
  · cases out with
    | error e => exact h e rfl
    | ok a => exact trivial

end Operations

section Connecting
variable {connected built served : EntryOf server → P.Phase → Prop}

theorem obeys_resolved {α : Type} {p : RegistryProg (Outcome α)}
    (hquiet : ∀ op, isResolution op = true → P.may φ op ∧ ∀ ans, P.after φ op ans = φ)
    (h : p.All (isResolution · = true) (Fails (bad · φ))) :
    Obeys P (Comes (fun _ ψ => ψ = φ) bad) p φ := by
  refine obeys_quiet hquiet (fun out hout => ?_) h
  cases out with
  | error e => exact hout e rfl
  | ok a => rfl

theorem startService_walk (serverConfig : ServerConfig) (env headers : TextMap Text)
    (hquiet : ∀ op, isPreparation op = true → P.may φ op ∧ ∀ ans, P.after φ op ans = φ)
    (hfailed : ∀ message, bad (.upstreamConnect server message) φ)
    (hspawn : P.may φ (.spawnTransport server) ∧
      ∀ out, P.after φ (.spawnTransport server) out = φ)
    (hnever : serverConfig.transportKind ≠ "stdio".toList →
      serverConfig.transportKind ≠ "streamable-http".toList →
        ∀ message, P.may φ (.unreachable message))
    (hserve : Obeys P (Comes served bad) (serveTransport server) φ) :
    Obeys P (Comes served bad) (startService server serverConfig env headers) φ := by
  rw [startService]
  split_ifs with hstdio hhttp
  · refine obeys_bind (obeys_quiet hquiet (fun _ _ => ?_) (registerAll_all env.entries))
    refine ⟨hspawn.1, fun out => ?_⟩
    rw [hspawn.2]
    cases out with
    | error e => exact hfailed e
    | ok _ => exact hserve
  · refine obeys_bind (obeys_quiet hquiet (fun out hout => ?_)
      (@buildHttpHeaders_fails (bad · φ) server hfailed headers.entries))
    cases out with
    | error e => exact hout e rfl
    | ok _ => exact hserve
  · exact ⟨hnever hstdio hhttp _, fun never => Empty.elim never⟩

/-- The operations of a connect future. -/
def Starts (server : Text) (serverConfig : ServerConfig) : Op → Prop
  | .registerSecret _ | .headerName _ | .headerValue _ => True
  | .spawnTransport other | .serve other => other = server
  | .listRequest entry | .listReply entry | .newEntry entry _ => entry.server = server
  | .unreachable _ => serverConfig.transportKind ≠ "stdio".toList ∧
      serverConfig.transportKind ≠ "streamable-http".toList
  | _ => False

theorem connect_starts {E : ToolError → Prop}
    (hfailed : ∀ message, E (.upstreamConnect server message)) (serverConfig : ServerConfig)
    (env headers : TextMap Text) :
    (connect server serverConfig env headers).All (Starts server serverConfig) (Fails E) := by
  have hprepare : ∀ op, isPreparation op = true → Starts server serverConfig op := by
    intro op hop
    cases op <;> first | exact trivial | cases hop
  have hserve : (serveTransport server).All (Starts server serverConfig) (Fails E) := by
    refine ⟨rfl, fun out => ?_⟩
    cases out with
    | error e => exact fails_error (hfailed e)
    | ok entry => exact fails_ok entry
  refine fails_only.mp (obeys_except (startService_walk serverConfig env headers
    (fun op hop => ⟨hprepare op hop, fun _ => rfl⟩) hfailed ⟨rfl, fun _ => rfl⟩
    (fun hstdio hhttp _ => ⟨hstdio, hhttp⟩) (fails_only.mpr hserve)) (fun _ _ he => he)
    fun entry _ _ => ?_)
  refine ⟨entry.2, fun _ => ⟨entry.2, fun reply => ?_⟩⟩
  cases reply with
  | error e => exact hfailed _
  | ok tools => exact ⟨entry.2, fun _ => trivial⟩

theorem connectAbsent_parts
    (hunknown : server ∉ config.servers → bad (.unknownServer server) φ)
    (hresolve : ∀ serverConfig, config.servers.lookup server = some serverConfig →
      Obeys P (Comes (fun _ ψ => ψ = φ) bad)
        (resolveValues server false serverConfig.env.entries ∅) φ ∧
      Obeys P (Comes (fun _ ψ => ψ = φ) bad)
        (resolveValues server true serverConfig.headers.entries ∅) φ ∧
      Obeys P (Comes (fun _ ψ => ψ = φ) bad) (resolveCwd server serverConfig) φ)
    (hattempt : ∀ serverConfig env headers, config.servers.lookup server = some serverConfig →
      Obeys P (Comes built bad) (attempt server serverConfig env headers) φ)
    (hinsert : ∀ entry ψ, built entry ψ → Obeys P (fun _ => connected entry)
      (withLock .entriesWrite (doing (.entriesInsert server entry))) ψ) :
    Obeys P (Comes connected bad) (connectAbsent config server) φ := by
  rw [connectAbsent]
  cases hlookup : config.servers.lookup server with
  | none => exact hunknown (AList.lookup_eq_none.mp hlookup)
  | some serverConfig =>
    obtain ⟨henv, hheaders, hcwd⟩ := hresolve serverConfig hlookup
    have hstop : ∀ (e : ToolError) (ψ : P.Phase), bad e ψ →
        Obeys P (Comes connected bad) (.done (.error e)) ψ := fun _ _ he => he
    refine obeys_except henv hstop ?_
    rintro env _ rfl
    refine obeys_except hheaders hstop ?_
    rintro headers _ rfl
    refine obeys_except hcwd hstop ?_
    rintro cwd _ rfl
    refine obeys_except (hattempt serverConfig env headers hlookup) hstop fun entry ψ hψ => ?_
    exact obeys_bind (obeys_mono (fun _ _ h => h) (hinsert entry ψ hψ))

theorem connectAbsent_walk
    (hquiet : ∀ op, isResolution op = true → P.may φ op ∧ ∀ ans, P.after φ op ans = φ)
    (hunknown : server ∉ config.servers → bad (.unknownServer server) φ)
    (hkey : ∀ key, bad (.credentialResolution server key) φ)
    (hcwd : ∀ message, bad (.upstreamConnect server message) φ)
    (hattempt : ∀ serverConfig env headers, config.servers.lookup server = some serverConfig →
      Obeys P (Comes built bad) (attempt server serverConfig env headers) φ)
    (hinsert : ∀ entry ψ, built entry ψ → Obeys P (fun _ => connected entry)
      (withLock .entriesWrite (doing (.entriesInsert server entry))) ψ) :
    Obeys P (Comes connected bad) (connectAbsent config server) φ :=
  connectAbsent_parts hunknown
    (fun serverConfig _ => ⟨obeys_resolved hquiet (resolveValues_fails hkey false _ ∅),
      obeys_resolved hquiet (resolveValues_fails hkey true _ ∅),
      obeys_resolved hquiet (resolveCwd_fails hkey hcwd serverConfig)⟩) hattempt hinsert

theorem connectGuarded_walk {missed : P.Phase → Prop}
    (hlookup : Obeys P (Finds connected missed) (lookupEntry server) φ)
    (hconnect : ∀ ψ, missed ψ → Obeys P (Comes connected bad) (connectAbsent config server) ψ) :
    Obeys P (Comes connected bad) (connectGuarded config server) φ :=
  obeys_option hlookup (fun _ _ h => h) hconnect

theorem getOrConnect_walk {missed : P.Phase → Prop} {guarded : ℕ → P.Phase → Prop}
    (hlookup : Obeys P (Finds connected missed) (lookupEntry server) φ)
    (hguard : ∀ ψ, missed ψ →
      Obeys P guarded (withLock .initGuards (doing (.guardEntry server))) ψ)
    (hconnect : ∀ guard ψ, guarded guard ψ → Obeys P (Comes connected bad)
      (withLock (.init guard) (connectGuarded config server)) ψ) :
    Obeys P (Comes connected bad) (getOrConnect config server) φ :=
  obeys_option hlookup (fun _ _ h => h) fun ψ hψ =>
    obeys_bind (obeys_mono hconnect (hguard ψ hψ))

end Connecting

section Using
variable {connected fresh : EntryOf server → P.Phase → Prop}
  {listed : EntryOf server → Listing → P.Phase → Prop} {tool : Text}
  {arguments : Option JsonObject}

theorem reading_walk {β : Type} {post : Outcome β → P.Phase → Prop}
    {f : EntryOf server → Listing → RegistryProg (Outcome β)}
    (hconnect : Obeys P (Comes connected bad) (getOrConnect config server) φ)
    (hfresh : ∀ entry ψ, connected entry ψ →
      Obeys P (Comes (fun _ => fresh entry) bad) (ensureFresh entry.1 server) ψ)
    (hread : ∀ entry ψ, fresh entry ψ → Obeys P (listed entry) (readInventory entry.1) ψ)
    (hbad : ∀ e ψ, bad e ψ → post (.error e) ψ)
    (hf : ∀ entry listing ψ, listed entry listing ψ → Obeys P post (f entry listing) ψ) :
    Obeys P post (do
      match ← getOrConnect config server with
      | .error e => return .error e
      | .ok entry =>
        match ← ensureFresh entry.1 server with
        | .error e => return .error e
        | .ok () =>
          let listing ← readInventory entry.1
          f entry listing) φ := by
  refine obeys_except hconnect hbad fun entry ψ hψ => ?_
  refine obeys_except (hfresh entry ψ hψ) hbad fun _ χ hχ => ?_
  exact obeys_bind (obeys_mono (hf entry) (hread entry χ hχ))

theorem inventory_walk {shown : List Tool → P.Phase → Prop}
    (hconnect : Obeys P (Comes connected bad) (getOrConnect config server) φ)
    (hfresh : ∀ entry ψ, connected entry ψ →
      Obeys P (Comes (fun _ => fresh entry) bad) (ensureFresh entry.1 server) ψ)
    (hread : ∀ entry ψ, fresh entry ψ → Obeys P (listed entry) (readInventory entry.1) ψ)
    (hshown : ∀ entry listing ψ, listed entry listing ψ → shown listing.tools ψ) :
    Obeys P (Comes shown bad) (inventory config server) φ :=
  reading_walk hconnect hfresh hread (fun _ _ h => h) hshown

/-- What is replied once the future of the call is over, or its timer has fired. -/
def Called (server tool : Text) (result : CallToolResult → P.Phase → Prop)
    (bad : ToolError → P.Phase → Prop) :
    Option (Except ServiceError CallToolResult) → P.Phase → Prop
  | some (.ok out) => result out
  | some (.error e) => bad (mapServiceError e server tool)
  | none => bad (.upstreamTimeout server (some tool))

theorem callTool_walk {result : CallToolResult → P.Phase → Prop}
    (hconnect : Obeys P (Comes connected bad) (getOrConnect config server) φ)
    (hfresh : ∀ entry ψ, connected entry ψ →
      Obeys P (Comes (fun _ => fresh entry) bad) (ensureFresh entry.1 server) ψ)
    (hread : ∀ entry ψ, fresh entry ψ → Obeys P (listed entry) (readInventory entry.1) ψ)
    (hunknown : ∀ entry listing ψ, listed entry listing ψ → bad (.unknownTool server tool) ψ)
    (hforward : ∀ entry listing ψ, listed entry listing ψ →
      (∃ found ∈ listing.tools, found.name = tool) →
        Obeys P (Called server tool result bad) (timed (forwardCall entry.1 tool arguments)) ψ) :
    Obeys P (Comes result bad) (callTool config server tool arguments) φ := by
  refine reading_walk hconnect hfresh hread (fun _ _ h => h)
    fun entry listing ψ hψ => ?_
  split_ifs with hknown
  · exact hunknown entry listing ψ hψ
  · have hfound : ∃ found ∈ listing.tools, found.name = tool := by simpa using hknown
    refine obeys_bind (obeys_mono (fun out χ hχ => ?_) (hforward entry listing ψ hψ hfound))
    rcases out with _ | e | out <;> exact hχ

end Using

section Listing
variable {active : ActiveNamespace} {replied : Reply → P.Phase → Prop}

/-- The rows that an inventory adds to a listing. -/
def rowsOf (active : ActiveNamespace) (server : Text) (tools : List Tool) : List Row :=
  (tools.filter fun tool => active.isToolAllowed server tool.name).map (Row.mk server)

theorem listRows_gathers {gathered : List Row → P.Phase → Prop} (servers : List Text)
    (hinventory : ∀ server ∈ servers, server ∈ config.servers → ∀ rows φ, gathered rows φ →
      Obeys P (Comes (fun tools => gathered (rows ++ rowsOf active server tools)) bad)
        (inventory config server) φ)
    (hrows : ∀ rows φ, gathered rows φ → replied (.rows rows) φ)
    (hunknown : ∀ server ∈ servers, server ∉ config.servers → ∀ rows φ, gathered rows φ →
      replied (.failed (.unknownServer server)) φ)
    (hbad : ∀ e φ, bad e φ → replied (.failed e) φ) (rows : List Row) (hφ : gathered rows φ) :
    Obeys P replied (listRows config active servers rows) φ := by
  induction servers generalizing rows φ with
  | nil => exact hrows rows φ hφ
  | cons server rest ih =>
    obtain ⟨hserver, hrest⟩ := List.forall_mem_cons.mp hinventory
    obtain ⟨hout, hothers⟩ := List.forall_mem_cons.mp hunknown
    rw [listRows]
    split_ifs with hhas
    · exact hout (by simpa [hasServer] using hhas) rows φ hφ
    · have hin : server ∈ config.servers := by simpa [hasServer] using hhas
      exact obeys_except (hserver hin rows φ hφ) hbad fun tools ψ hψ => ih hrest hothers _ hψ

theorem listRows_walk {start : P.Phase → Prop} (servers : List Text)
    (hinventory : ∀ server ∈ servers, ∀ φ, start φ →
      Obeys P (Comes (fun _ => start) bad) (inventory config server) φ)
    (hrows : ∀ rows φ, start φ → replied (.rows rows) φ)
    (hunknown : ∀ server φ, start φ → replied (.failed (.unknownServer server)) φ)
    (hbad : ∀ e φ, bad e φ → replied (.failed e) φ) (rows : List Row) (hφ : start φ) :
    Obeys P replied (listRows config active servers rows) φ :=
  listRows_gathers servers (fun server hs _ _ φ => hinventory server hs φ) hrows
    (fun server _ _ _ => hunknown server) hbad rows hφ

end Listing

end FaninMcp.RegistryWalk
