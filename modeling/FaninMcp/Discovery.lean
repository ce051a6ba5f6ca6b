import FaninMcp.PermissionLayer

/-!
# What requests come to when everything answers

A program under answers that go well: credentials resolve, transports come up,
no timer fires and the request is not cancelled, every server answers with some
list and one of them always with the same. Then every registry call succeeds,
and what it returns and forwards for that server is decided by its inventory.
-/

set_option autoImplicit false

namespace FaninMcp.Discovery
open Foundation.RustText Foundation.JsonText Foundation.AsyncPrograms FaninMcp.ConfigModel
  FaninMcp.ErrorModel FaninMcp.NamespaceResolver FaninMcp.ConfigValidation FaninMcp.NamespaceAcl
  FaninMcp.RegistryModel FaninMcp.RegistryWorld FaninMcp.RegistryProtocol FaninMcp.RegistryObeys
  FaninMcp.MetaTools FaninMcp.MetaAcl

/-- The environment answers, and so does every upstream, the server `s` with its
inventory. -/
def Answering (s : Text) (items : List Tool) : (op : Op) → Ans op → Prop
  | .spawnTransport _, out => out = .ok ()
  | .headerName _, out => out = .ok ()
  | .headerValue _, out => out = .ok ()
  | .serve server, out => ∃ entry : EntryOf server, out = .ok entry
  | .listReply entry, out => ∃ l : Listing, out = .ok l ∧ (entry.server = s → l.tools = items)
  | .storeGet _ _, found => ∀ value, found = .ok (some value) → trim value ≠ []
  | .envVar _, found => ∃ value, found = some value ∧ trim value ≠ []
  | .poll, fired => fired = false
  | .cancelled, fired => fired = false
  | _, _ => True

/-- And what is cached for `s` is this inventory. -/
def Steady (s : Text) (items : List Tool) : (op : Op) → Ans op → Prop
  | .readTools entry, l => entry.server = s → l.tools = items
  | op, ans => Answering s items op ans

abbrev Forwarded := Text × Text × Option JsonObject

def callsAfter (calls : List Forwarded) : (op : Op) → Ans op → List Forwarded
  | .callRequest entry tool arguments, _ => calls ++ [(entry.server, tool, arguments)]
  | _, _ => calls

abbrev callsProtocol : Protocol registryOps :=
  ⟨List Forwarded, [], fun _ _ => True, callsAfter⟩

/-- A program that forwards nothing, and comes to a result in `R`. -/
def Yields (s : Text) (items : List Tool) {α : Type} (p : RegistryProg α) (R : α → Prop) : Prop :=
  ∀ calls, Under (Steady s items) callsProtocol (fun a after => after = calls ∧ R a) p calls

section Rules
variable {s : Text} {items : List Tool} {α β : Type} {R : α → Prop}

theorem yields_done {a : α} (h : R a) : Yields s items (.done a) R := fun _ => ⟨rfl, h⟩

theorem yields_act {op : Op} {next : Ans op → RegistryProg α} (hf : isForward op = false)
    (h : ∀ ans, Steady s items op ans → Yields s items (next ans) R) : Yields s items (.act op next) R := by
  intro calls ans hg
  have hsame : callsAfter calls op ans = calls := by cases op <;> first | rfl | cases hf
  change Under (Steady s items) callsProtocol _ (next ans) (callsAfter calls op ans)
  rw [hsame]
  exact h ans hg calls

theorem yields_mono {Q : α → Prop} (h : ∀ a, Q a → R a) {p : RegistryProg α}
    (hp : Yields s items p Q) : Yields s items p R :=
  fun calls => under_mono (fun _ _ ha => ⟨ha.1, h _ ha.2⟩) (hp calls)

theorem yields_bind {Q : β → Prop} {p : RegistryProg β} {f : β → RegistryProg α}
    (hp : Yields s items p Q) (hf : ∀ b, Q b → Yields s items (f b) R) : Yields s items (p >>= f) R := by
  intro calls
  refine under_bind (under_mono ?_ (hp calls))
  rintro b _ ⟨rfl, hb⟩
  exact hf b hb _

theorem yields_withLock {lock : Lock} {body : RegistryProg α} (h : Yields s items body R) :
    Yields s items (withLock lock body) R := by
  rw [withLock_eq]
  exact yields_act rfl fun _ _ => yields_bind h fun a ha => yields_act rfl fun _ _ => yields_done ha

theorem yields_timed {future : RegistryProg α} (h : Yields s items future R) :
    Yields s items (timed future) (fun out => ∃ a, out = some a ∧ R a) := by
  intro calls
  apply under_interruptible (fun ans hg => hg) (fun _ _ => rfl)
  exact yields_bind h (fun a ha => yields_done ⟨a, rfl, ha⟩) calls

end Rules

section Resolution
variable {s : Text} {items : List Tool}

def Solid : ScanMode → Text → Prop
  | .literal, text => trim text ≠ []
  | .variable _, _ => True

theorem trim_append_left {s : Text} (t : Text) (h : trim s ≠ []) : trim (s ++ t) ≠ [] := by
  obtain ⟨c, hc, hw⟩ := trim_ne_nil.mp h
  exact trim_ne_nil.mpr ⟨c, List.mem_append_left t hc, hw⟩

theorem trim_append_right (s : Text) {t : Text} (h : trim t ≠ []) : trim (s ++ t) ≠ [] := by
  obtain ⟨c, hc, hw⟩ := trim_ne_nil.mp h
  exact trim_ne_nil.mpr ⟨c, List.mem_append_right s hc, hw⟩

theorem resolveFrom_yields (server : Text) (mode : ScanMode) (result raw : Text) :
    Yields s items (resolveFrom server mode result raw) (fun out =>
      ∃ value, out = .ok value ∧ (Solid mode (result ++ raw) → trim value ≠ [])) := by
  have hlift : ∀ {mode text} {p : RegistryProg (Outcome Text)} {text' : Text},
      Yields s items p (fun out =>
        ∃ value, out = .ok value ∧ (Solid .literal text' → trim value ≠ [])) →
      (Solid mode text → trim text' ≠ []) →
      Yields s items p (fun out => ∃ value, out = .ok value ∧ (Solid mode text → trim value ≠ [])) := by
    intro mode text p text' hp htext
    refine yields_mono ?_ hp
    rintro out ⟨value, rfl, hv⟩
    exact ⟨value, rfl, fun hs => hv (htext hs)⟩
  fun_induction resolveFrom server mode result raw with
  | case1 result => exact yields_done ⟨result, rfl, by simp [Solid]⟩
  | case2 result rest ih =>
    refine yields_mono ?_ ih
    rintro out ⟨value, rfl, hv⟩
    exact ⟨value, rfl, fun _ => hv trivial⟩
  | case3 result c rest _ ih => exact hlift ih (by simp [Solid])
  | case4 name result =>
    have hdollar : trim "$\x7b".toList ≠ [] := by decide
    exact yields_done ⟨_, rfl, fun _ => trim_append_left name (trim_append_right result hdollar)⟩
  | case5 name result rest _ ih =>
    have hempty : trim "$\x7b\x7d".toList ≠ [] := by decide
    exact hlift ih fun _ => trim_append_left rest (trim_append_right result hempty)
  | case6 name result rest _ ih =>
    have hfound : ∀ value, trim value ≠ [] → Yields s items (do
        doing (.registerSecret value)
        resolveFrom server .literal (result ++ value) rest :
        RegistryProg (Outcome Text)) (fun out => ∃ value, out = .ok value ∧
          (Solid (.variable name) (result ++ '}' :: rest) → trim value ≠ [])) :=
      fun value hv => yields_act rfl fun _ _ => hlift (ih value) fun _ =>
        trim_append_left rest (trim_append_right result hv)
    refine yields_act rfl fun preferred hp => ?_
    rcases preferred with e | (_ | value)
    · refine yields_act rfl fun found henv => ?_
      obtain ⟨value, rfl, hv⟩ := henv
      exact hfound value hv
    · refine yields_act rfl fun found henv => ?_
      obtain ⟨value, rfl, hv⟩ := henv
      exact hfound value hv
    · exact hfound value (hp value rfl)
  | case7 name result c rest _ ih => exact yields_mono (fun _ h => h) ih

theorem resolveEnvValue_yields (server raw : Text) : Yields s items (resolveEnvValue server raw)
    (fun out => ∃ value, out = .ok value ∧ (trim raw ≠ [] → trim value ≠ [])) := by
  rw [resolveEnvValue]
  split_ifs
  · exact yields_done ⟨raw, rfl, id⟩
  · exact resolveFrom_yields server .literal [] raw

theorem resolveValues_yields (server : Text) (register : Bool) (values : List (Σ _ : Text, Text))
    (resolved : TextMap Text) : Yields s items (resolveValues server register values resolved)
      (fun out => ∃ map, out = .ok map) := by
  induction values generalizing resolved with
  | nil => exact yields_done ⟨resolved, rfl⟩
  | cons entry rest ih =>
    refine yields_bind (resolveEnvValue_yields server entry.2) ?_
    rintro out ⟨value, rfl, _⟩
    cases register with
    | true => exact yields_act rfl fun _ _ => ih _
    | false => exact ih _

theorem resolveCwd_yields (server : Text) {config : ServerConfig}
    (h : config.cwd.map trim ≠ some []) :
    Yields s items (resolveCwd server config) (fun out => ∃ cwd, out = .ok cwd) := by
  rw [resolveCwd]
  split_ifs
  · cases hcwd : config.cwd with
    | none => exact yields_done ⟨none, rfl⟩
    | some raw =>
      refine yields_bind (resolveEnvValue_yields server raw) ?_
      rintro out ⟨value, rfl, hv⟩
      have hraw : trim raw ≠ [] := by simpa [hcwd] using h
      dsimp only
      rw [if_neg (by simpa using hv hraw)]
      exact yields_done ⟨some value, rfl⟩
  · exact yields_done ⟨none, rfl⟩

end Resolution

section Registry
variable {s : Text} {items : List Tool} {config : TomlConfig} {server : Text}

theorem registerAll_yields (values : List (Σ _ : Text, Text)) :
    Yields s items (registerAll values) (fun _ => True) := by
  induction values with
  | nil => exact yields_done trivial
  | cons entry rest ih => exact yields_act rfl fun _ _ => ih

theorem buildHttpHeaders_yields (server : Text) (headers : List (Σ _ : Text, Text)) :
    Yields s items (buildHttpHeaders server headers) (fun out => out = .ok ()) := by
  induction headers with
  | nil => exact yields_done rfl
  | cons entry rest ih =>
    refine yields_act rfl fun name hname => ?_
    obtain rfl : name = .ok () := hname
    refine yields_act rfl fun value hvalue => ?_
    obtain rfl : value = .ok () := hvalue
    exact ih

theorem serveTransport_yields (server : Text) :
    Yields s items (serveTransport server) (fun out => ∃ entry, out = .ok entry) := by
  refine yields_act rfl fun out hout => ?_
  obtain ⟨entry, rfl⟩ := hout
  exact yields_done ⟨entry, rfl⟩

theorem startService_yields {serverConfig : ServerConfig} (h : ServerReady serverConfig)
    (env headers : TextMap Text) : Yields s items (startService server serverConfig env headers)
      (fun out => ∃ entry, out = .ok entry) := by
  rw [startService]
  split_ifs with hstdio hhttp
  · refine yields_bind (registerAll_yields env.entries) fun _ _ => ?_
    refine yields_act rfl fun out hout => ?_
    obtain rfl : out = .ok () := hout
    exact serveTransport_yields server
  · refine yields_bind (buildHttpHeaders_yields server headers.entries) ?_
    rintro _ rfl
    exact serveTransport_yields server
  · exact absurd (h.fields.imp And.left And.left) (not_or.mpr ⟨hstdio, hhttp⟩)

theorem connect_yields {serverConfig : ServerConfig} (h : ServerReady serverConfig)
    (env headers : TextMap Text) : Yields s items (connect server serverConfig env headers)
      (fun out => ∃ entry, out = .ok entry) := by
  refine yields_bind (startService_yields h env headers) ?_
  rintro _ ⟨entry, rfl⟩
  refine yields_act rfl fun _ _ => yields_act rfl fun reply hreply => ?_
  obtain ⟨l, rfl, _⟩ := hreply
  exact yields_act rfl fun _ _ => yields_done ⟨entry, rfl⟩

theorem attempt_yields {serverConfig : ServerConfig} (h : ServerReady serverConfig)
    (env headers : TextMap Text) : Yields s items (attempt server serverConfig env headers)
      (fun out => ∃ entry, out = .ok entry) := by
  rw [attempt_eq]
  refine yields_act rfl fun _ _ => yields_bind (yields_timed (connect_yields h env headers)) ?_
  rintro _ ⟨_, rfl, entry, rfl⟩
  exact yields_act rfl fun _ _ => yields_done ⟨entry, rfl⟩

theorem lookupEntry_yields (server : Text) :
    Yields s items (lookupEntry server) (fun _ => True) :=
  yields_withLock (yields_act rfl fun _ _ => yields_done trivial)

theorem connectAbsent_yields (hready : ∀ entry ∈ config.servers.entries, ServerReady entry.2)
    (h : server ∈ config.servers) :
    Yields s items (connectAbsent config server) (fun out => ∃ entry, out = .ok entry) := by
  rw [connectAbsent]
  obtain ⟨serverConfig, hlookup⟩ := Option.isSome_iff_exists.mp (AList.lookup_isSome.mpr h)
  have hserver := hready ⟨server, serverConfig⟩ (AList.mem_lookup_iff.mp hlookup)
  rw [hlookup]
  refine yields_bind (resolveValues_yields server false serverConfig.env.entries ∅) ?_
  rintro _ ⟨env, rfl⟩
  refine yields_bind (resolveValues_yields server true serverConfig.headers.entries ∅) ?_
  rintro _ ⟨headers, rfl⟩
  refine yields_bind (resolveCwd_yields server hserver.cwd) ?_
  rintro _ ⟨cwd, rfl⟩
  refine yields_bind (attempt_yields hserver env headers) ?_
  rintro _ ⟨entry, rfl⟩
  refine yields_bind (Q := fun _ => True) (yields_withLock ?_) ?_
  · exact yields_act rfl fun _ _ => yields_done trivial
  · exact fun _ _ => yields_done ⟨entry, rfl⟩

theorem getOrConnect_yields (hready : ∀ entry ∈ config.servers.entries, ServerReady entry.2)
    (h : server ∈ config.servers) :
    Yields s items (getOrConnect config server) (fun out => ∃ entry, out = .ok entry) := by
  have hagain : Yields s items (connectGuarded config server) (fun out => ∃ entry, out = .ok entry) := by
    refine yields_bind (lookupEntry_yields server) fun found _ => ?_
    cases found with
    | some entry => exact yields_done ⟨entry, rfl⟩
    | none => exact connectAbsent_yields hready h
  refine yields_bind (lookupEntry_yields server) fun found _ => ?_
  cases found with
  | some entry => exact yields_done ⟨entry, rfl⟩
  | none =>
    refine yields_bind (Q := fun _ => True) (yields_withLock ?_) ?_
    · exact yields_act rfl fun _ _ => yields_done trivial
    · exact fun guard _ => yields_withLock hagain

theorem fetchTools_yields (entry : Entry) :
    Yields s items (fetchTools entry) (fun out => ∃ fresh, out = .ok fresh) := by
  refine yields_act rfl fun _ _ => yields_act rfl fun reply hreply => ?_
  obtain ⟨l, rfl, _⟩ := hreply
  exact yields_done ⟨l, rfl⟩

theorem ensureFresh_yields (entry : Entry) (server : Text) :
    Yields s items (ensureFresh entry server) (fun out => out = .ok ()) := by
  refine yields_act rfl fun dirty _ => ?_
  cases dirty with
  | false => exact yields_done rfl
  | true =>
    refine yields_act rfl fun was _ => ?_
    cases was with
    | false => exact yields_done rfl
    | true =>
      refine yields_bind (p := timed (fetchTools entry)) (yields_timed (fetchTools_yields entry)) ?_
      rintro _ ⟨_, rfl, fresh, rfl⟩
      refine yields_bind (Q := fun _ => True) (yields_withLock ?_) ?_
      · exact yields_act rfl fun _ _ => yields_done trivial
      · exact fun _ _ => yields_done rfl

theorem readInventory_yields (entry : Entry) :
    Yields s items (readInventory entry) (fun l => entry.server = s → l.tools = items) :=
  yields_withLock (yields_act rfl fun _ hl => yields_done hl)

theorem inventory_yields (hready : ∀ entry ∈ config.servers.entries, ServerReady entry.2)
    (h : server ∈ config.servers) : Yields s items (inventory config server)
      (fun out => ∃ tools, out = .ok tools ∧ (server = s → tools = items)) := by
  refine yields_bind (getOrConnect_yields hready h) ?_
  rintro _ ⟨entry, rfl⟩
  refine yields_bind (ensureFresh_yields entry.1 server) ?_
  rintro _ rfl
  refine yields_bind (readInventory_yields entry.1) fun l hl => ?_
  rw [entry.2] at hl
  exact yields_done ⟨l.tools, rfl, hl⟩

theorem under_of_yields {α : Type} {R : α → Prop} {post : α → List Forwarded → Prop}
    {p : RegistryProg α} {calls : List Forwarded} (hp : Yields s items p R)
    (h : ∀ a, R a → post a calls) : Under (Steady s items) callsProtocol post p calls := by
  refine under_mono ?_ (hp calls)
  rintro a _ ⟨rfl, ha⟩
  exact h a ha

theorem callTool_under (hready : ∀ entry ∈ config.servers.entries, ServerReady entry.2)
    (h : s ∈ config.servers) (tool : Text) (arguments : Option JsonObject)
    (calls : List Forwarded) :
    Under (Steady s items) callsProtocol (fun _ after =>
        after = if ∃ found ∈ items, found.name = tool
          then calls ++ [(s, tool, arguments)] else calls)
      (callTool config s tool arguments) calls := by
  refine under_bind (under_of_yields (getOrConnect_yields hready h) ?_)
  rintro _ ⟨entry, rfl⟩
  refine under_bind (under_of_yields (ensureFresh_yields entry.1 s) ?_)
  rintro _ rfl
  refine under_bind (under_of_yields (readInventory_yields entry.1) fun l hl => ?_)
  have hl := hl entry.2
  have hany : (l.tools.any fun t => t.name = tool) = true ↔
      ∃ found ∈ items, found.name = tool := by
    simp [hl]
  by_cases hfound : ∃ found ∈ items, found.name = tool
  · rw [if_pos hfound]
    rw [← hany] at hfound
    rw [if_neg (by simp [hfound])]
    have hforward : Under (Steady s items) callsProtocol
        (fun _ after => after = calls ++ [(s, tool, arguments)])
        (timed (forwardCall entry.1 tool arguments)) calls := by
      apply under_interruptible (fun ans hg => hg) (fun _ _ => rfl)
      intro u _ reply _
      change calls ++ [(entry.1.server, tool, arguments)] = calls ++ [(s, tool, arguments)]
      rw [entry.2]
    refine under_bind (under_mono (fun out after hafter => ?_) hforward)
    rcases out with _ | e | result <;> exact hafter
  · rw [if_neg hfound]
    rw [← hany] at hfound
    rw [if_pos (by simpa using hfound)]
    rfl

end Registry

end FaninMcp.Discovery
