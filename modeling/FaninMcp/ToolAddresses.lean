import FaninMcp.AnswerableRequests
import FaninMcp.DisplayText

/-!
# Addresses of tools

A tool is addressed by its server and its own name, joined by two underscores.
As no server name has an underscore the address is read back as it was written,
whatever the name of the tool. But the name that a row shows is the sanitized
one, and the address it makes selects the tool only where sanitizing left the
name as it was.
-/

set_option autoImplicit false

namespace FaninMcp.ToolAddresses
open Foundation.RustText Foundation.JsonText Foundation.AsyncPrograms FaninMcp.ConfigModel
  FaninMcp.ErrorModel FaninMcp.ConfigValidation FaninMcp.NamespaceAcl FaninMcp.RegistryModel
  FaninMcp.RegistryProtocol FaninMcp.MetaTools FaninMcp.MetaAcl FaninMcp.PermissionLayer
  FaninMcp.Discovery FaninMcp.DiscoveryAgreement FaninMcp.StartupSufficiency FaninMcp.DisplayText
  FaninMcp.AnswerableRequests

section RoundTrip

theorem parsed_parts {x s t : Text} (h : parseServerTool x = some (s, t)) :
    x = s ++ "__".toList ++ t ∧ s ≠ [] ∧ t ≠ [] ∧ ¬ "__".toList <:+: s := by
  rw [parseServerTool] at h
  split at h
  · cases h
  · rename_i server tool hsplit
    split_ifs at h with hempty
    cases h
    rw [Bool.not_eq_true, Bool.or_eq_false_iff, List.isEmpty_eq_false_iff,
      List.isEmpty_eq_false_iff] at hempty
    exact ⟨splitOnce_some hsplit, hempty.1, hempty.2, splitOnce_first (by decide) hsplit⟩

theorem parsed_server {s s' t t' : Text} (hs : validateServerName s = .ok ())
    (h : parseServerTool (s ++ "__".toList ++ t) = some (s', t')) : s' = s ∧ t' = t := by
  obtain ⟨hne, hchars⟩ := validateServerName_ok.mp hs
  by_cases ht : t = []
  · have hfree : '_' ∉ s := fun hin => absurd (hchars '_' hin) (by decide)
    have hsplit := @splitOnce_append '_' ['_'] s t hfree
    rw [parseServerTool, show "__".toList = ['_', '_'] from rfl, hsplit] at h
    simp [ht] at h
  · rw [parse_joined hne hchars ht] at h
    cases h
    exact ⟨rfl, rfl⟩

/-- An address is read back as the server and the tool it was made of, and what
is read was an address of that form. So no two pairs share an address, and none
is read as one for another server. -/
theorem qualified_names :
    (∀ s t, validateServerName s = .ok () → t ≠ [] →
      parseServerTool (s ++ "__".toList ++ t) = some (s, t)) ∧
    (∀ x s t, parseServerTool x = some (s, t) →
      x = s ++ "__".toList ++ t ∧ s ≠ [] ∧ t ≠ [] ∧ ¬ "__".toList <:+: s) ∧
    (∀ s t s' t', validateServerName s = .ok () → t ≠ [] → validateServerName s' = .ok () →
      t' ≠ [] → s ++ "__".toList ++ t = s' ++ "__".toList ++ t' → s = s' ∧ t = t') ∧
    ∀ (config : TomlConfig) (selected : Text), Valid config selected → ∀ s ∈ config.servers,
      ∀ t s' t', parseServerTool (s ++ "__".toList ++ t) = some (s', t') → s' = s := by
  have hread : ∀ s t, validateServerName s = .ok () → t ≠ [] →
      parseServerTool (s ++ "__".toList ++ t) = some (s, t) := by
    intro s t hs ht
    obtain ⟨hne, hchars⟩ := validateServerName_ok.mp hs
    exact parse_joined hne hchars ht
  refine ⟨hread, fun _ _ _ => parsed_parts, ?_, ?_⟩
  · intro s t s' t' hs ht hs' ht' heq
    have hone := hread s t hs ht
    rw [heq, hread s' t' hs' ht'] at hone
    cases hone
    exact ⟨rfl, rfl⟩
  · intro config selected hv s hs t s' t' h
    exact (parsed_server (validateServerName_ok.mpr (hv.names s hs)) h).1

example : parseServerTool "my-db___query__all".toList = some ("my-db".toList, "_query__all".toList) := by
  decide

end RoundTrip

section Replies
variable {config : TomlConfig} {active : ActiveNamespace} {s t : Text} {items : List Tool}

def rowsOf (s : Text) (rows : List Row) : List Row := rows.filter fun row => row.server = s

/-- The rows of the server: its allowed tools, in the order of its inventory. -/
def offeredRows (active : ActiveNamespace) (items : List Tool) (s : Text) : List Row :=
  (items.filter fun tool => active.isToolAllowed s tool.name).map (Row.mk s)

theorem rowsOf_map (s server : Text) (tools : List Tool) :
    rowsOf s (tools.map (Row.mk server)) = if server = s then tools.map (Row.mk s) else [] := by
  split_ifs with h
  · subst h
    rw [rowsOf, List.filter_eq_self]
    intro row hrow
    obtain ⟨tool, _, rfl⟩ := List.mem_map.mp hrow
    exact decide_eq_true rfl
  · rw [rowsOf, List.filter_eq_nil_iff]
    intro row hrow
    obtain ⟨tool, _, rfl⟩ := List.mem_map.mp hrow
    simpa using h

theorem listRows_offered (hready : ∀ entry ∈ config.servers.entries, ServerReady entry.2)
    (servers : List Text) (hs : ∀ server ∈ servers, server ∈ config.servers)
    (hnodup : servers.Nodup) (rows : List Row) :
    Yields s items (listRows config active servers rows) (fun reply => ∃ shown,
      reply = .rows shown ∧
        rowsOf s shown = rowsOf s rows ++ if s ∈ servers then offeredRows active items s else []) := by
  induction servers generalizing rows with
  | nil => exact yields_done ⟨rows, rfl, by simp⟩
  | cons server rest ih =>
    obtain ⟨hin, hrest⟩ := List.forall_mem_cons.mp hs
    obtain ⟨hout, hnodup⟩ := List.nodup_cons.mp hnodup
    rw [listRows, if_neg (by simpa [hasServer] using hin)]
    refine yields_bind (inventory_yields hready hin) ?_
    rintro _ ⟨tools, rfl, htools⟩
    refine yields_mono ?_ (ih hrest hnodup _)
    rintro _ ⟨shown, rfl, hshown⟩
    refine ⟨shown, rfl, ?_⟩
    rw [hshown, rowsOf, List.filter_append, ← rowsOf, ← rowsOf, rowsOf_map, List.append_assoc]
    congr 1
    by_cases hserver : server = s
    · subst hserver
      rw [if_pos rfl, if_neg hout, if_pos List.mem_cons_self, htools rfl, List.append_nil]
      rfl
    · rw [if_neg hserver, List.nil_append]
      simp [Ne.symm hserver]

theorem offeredRows_hidden (h : active.isServerAllowed s = false) : offeredRows active items s = [] := by
  rw [offeredRows, List.map_eq_nil_iff, List.filter_eq_nil_iff]
  intro tool _
  simp [ActiveNamespace.isToolAllowed, h]

theorem list_offered (hc : Covers config active)
    (hready : ∀ entry ∈ config.servers.entries, ServerReady entry.2) (hs : s ∈ config.servers)
    {request : Request} (hl : Lists s request) : Under (Steady s items) callsProtocol
      (fun reply _ => ∀ shown, reply = .rows shown → rowsOf s shown = offeredRows active items s)
      (dispatchTool (.withRegistry config active) request) [] := by
  rcases lists_cases hc hs hl with ⟨_, e, he⟩ | ⟨servers, hr, hin, hnodup, hvisible⟩
  · rw [he]
    rintro shown ⟨⟩
  · rw [hr]
    apply under_of_yields (listRows_offered hready servers hin hnodup [])
    rintro _ ⟨shown, rfl, hshown⟩ other hother
    cases hother
    rw [hshown]
    split_ifs with hmem
    · rfl
    · rw [offeredRows_hidden (Bool.eq_false_iff.mpr fun h => hmem (hvisible h))]
      rfl

def schemaReply (active : ActiveNamespace) (items : List Tool) (s t : Text) : Reply :=
  if active.isToolAllowed s t then
    (items.find? fun tool => tool.name = t).elim (.failed (.unknownTool s t)) (.schema s)
  else .failed (.namespaceDenied s (some t))

theorem schema_replied (hready : ∀ entry ∈ config.servers.entries, ServerReady entry.2)
    (hs : s ∈ config.servers) (hparse : parseServerTool (s ++ "__".toList ++ t) = some (s, t))
    {request : Request} (ha : AsksSchema s t request) : Under (Steady s items) callsProtocol
      (fun reply _ => reply = schemaReply active items s t)
      (dispatchTool (.withRegistry config active) request) [] := by
  rw [asksSchema_eq hs hparse ha, schemaReply]
  split_ifs
  · refine under_bind (under_of_yields (inventory_yields hready hs) ?_)
    rintro _ ⟨tools, rfl, htools⟩
    obtain rfl := htools rfl
    exact rfl
  · exact rfl

end Replies

section Callable
variable (config : TomlConfig) (active : ActiveNamespace) (items : List Tool) (s : Text)

def Row.shownAs (row : Row) : Text := sanitizeUpstreamIdentifier row.tool.name

theorem row_shownAs (row : Row) : ∃ fields, row.json = .obj fields ∧
    get fields "tool".toList = some (.str (Row.shownAs row)) ∧
    get fields "name".toList = some (.str (Row.shownAs row)) := ⟨_, rfl, rfl, rfl⟩

/-- Under this name of the server, `get_tool_schema` shows the tool and
`invoke_tool` calls it. -/
structure Selects (t : Text) (tool : Tool) : Prop where
  schema : ∀ request, AsksSchema s t request → Under (Steady s items) callsProtocol
    (fun reply _ => reply = .schema s tool) (dispatchTool (.withRegistry config active) request) []
  call : ∀ request object, Invokes s t object request → Under (Steady s items) callsProtocol
    (fun _ calls => calls = [(s, tool.name, some object)])
    (dispatchTool (.withRegistry config active) request) []

/-- The rows of the server show different names, and each name selects the tool
of its row. -/
structure Callable : Prop where
  distinct : ∀ request, Lists s request → Under (Steady s items) callsProtocol
    (fun reply _ => ∀ shown, reply = .rows shown → ((rowsOf s shown).map Row.shownAs).Nodup)
    (dispatchTool (.withRegistry config active) request) []
  selected : ∀ request, Lists s request → Under (Steady s items) callsProtocol
    (fun reply _ => ∀ shown, reply = .rows shown → ∀ row ∈ rowsOf s shown,
      Selects config active items s (Row.shownAs row) row.tool)
    (dispatchTool (.withRegistry config active) request) []

variable {config active items s}

/-- A listing does come to the rows of the allowed tools, also where the answers
are to meet a further condition that can be met. -/
theorem listing_reached {G : (op : Op) → Ans op → Prop} (hc : Covers config active)
    (hready : ∀ entry ∈ config.servers.entries, ServerReady entry.2) (hs : s ∈ config.servers)
    (hG : ∀ op, Expected op → ∃ ans, Steady s items op ans ∧ G op ans) {Q : List Row → Prop}
    (h : ∀ request, Lists s request → Under G callsProtocol
      (fun reply _ => ∀ shown, reply = .rows shown → Q (rowsOf s shown))
      (dispatchTool (.withRegistry config active) request) []) : Q (offeredRows active items s) := by
  have hlists : Lists s ⟨"list_tools".toList, none⟩ := ⟨rfl, Or.inl rfl⟩
  have hall : (dispatchTool (.withRegistry config active) ⟨"list_tools".toList, none⟩).All
      (fun op => ∃ ans, Steady s items op ans ∧ G op ans) (fun _ => True) :=
    all_mono hG (fun _ hr => hr) (@listRows_expected config active hready active.allowedServers [])
  have hrows : Under (Steady s items) callsProtocol (fun reply _ => ∃ shown, reply = .rows shown)
      (dispatchTool (.withRegistry config active) ⟨"list_tools".toList, none⟩) [] := by
    apply under_of_yields (listRows_offered hready active.allowedServers _ _ [])
    · rintro _ ⟨shown, rfl, _⟩
      exact ⟨shown, rfl⟩
    · exact fun server hin => hc server ((mem_allowedServers active server).mp hin)
    · exact active.servers.sort_nodup _
  obtain ⟨_, _, ⟨⟨shown, rfl⟩, hoffered⟩, hq⟩ := under_exists hall
    (under_and (under_fewer (fun _ _ hg => hg.1)
      (under_and hrows (list_offered hc hready hs hlists)))
      (under_fewer (fun _ _ hg => hg.2) (h _ hlists)))
  rw [← hoffered shown rfl]
  exact hq shown rfl

/-- What is required of the rows of every listing is required of the rows of the
allowed tools. -/
theorem listing_iff (hc : Covers config active)
    (hready : ∀ entry ∈ config.servers.entries, ServerReady entry.2) (hs : s ∈ config.servers)
    {Q : List Row → Prop} :
    (∀ request, Lists s request → Under (Steady s items) callsProtocol
      (fun reply _ => ∀ shown, reply = .rows shown → Q (rowsOf s shown))
      (dispatchTool (.withRegistry config active) request) []) ↔ Q (offeredRows active items s) := by
  constructor
  · apply listing_reached hc hready hs
    intro op hop
    obtain ⟨ans, hans⟩ := steady_exists s items hop
    exact ⟨ans, hans, hans⟩
  · intro h request hl
    apply under_mono _ (list_offered hc hready hs hl)
    intro reply _ hoffered shown hshown
    rw [hoffered shown hshown]
    exact h

theorem schema_found {t : Text} {tool : Tool} (h : schemaReply active items s t = .schema s tool) :
    tool.name = t := by
  rw [schemaReply] at h
  split_ifs at h
  cases hfind : items.find? (fun tool => tool.name = t) with
  | none =>
    rw [hfind] at h
    cases h
  | some found =>
    rw [hfind] at h
    cases h
    simpa using List.find?_some hfind

theorem schema_unparsed {t : Text} {request : Request} (ha : AsksSchema s t request)
    (hparse : parseServerTool (s ++ "__".toList ++ t) = none) :
    Under (Steady s items) callsProtocol (fun reply _ => ∀ server found, reply ≠ .schema server found)
      (dispatchTool (.withRegistry config active) request) [] := by
  rw [dispatchTool, if_neg (by rw [ha.1]; decide), if_pos ha.1, handleGetToolSchema, ha.2]
  simp only [hparse]
  rintro server found ⟨⟩

theorem selects_name (hready : ∀ entry ∈ config.servers.entries, ServerReady entry.2)
    (hs : s ∈ config.servers) (hname : validateServerName s = .ok ()) {t : Text} {tool : Tool}
    (h : Selects config active items s t tool) : tool.name = t := by
  have hasks : AsksSchema s t ⟨"get_tool_schema".toList,
      some [("name".toList, .str (s ++ "__".toList ++ t))]⟩ := ⟨rfl, rfl⟩
  obtain ⟨hne, hchars⟩ := validateServerName_ok.mp hname
  have hall := all_mono (fun _ hop => steady_exists s items hop) (fun _ hr => hr)
    (@schema_expected config active hready _ hasks.1)
  by_cases ht : t = []
  · have hnone : parseServerTool (s ++ "__".toList ++ t) = none := by
      cases hparse : parseServerTool (s ++ "__".toList ++ t) with
      | none => rfl
      | some parts => exact absurd ((parsed_server hname hparse).2.trans ht) (parsed_parts hparse).2.2.1
    obtain ⟨reply, _, rfl, hreply⟩ := under_exists hall
      (under_and (h.schema _ hasks) (schema_unparsed hasks hnone))
    exact absurd rfl (hreply s tool)
  · have hparse := parse_joined hne hchars ht
    obtain ⟨_, _, rfl, hreply⟩ := under_exists hall
      (under_and (h.schema _ hasks) (schema_replied hready hs hparse hasks))
    exact schema_found hreply.symm

theorem name_selects (hready : ∀ entry ∈ config.servers.entries, ServerReady entry.2)
    (hs : s ∈ config.servers) (hname : validateServerName s = .ok ())
    (hnodup : (items.map Tool.name).Nodup) {tool : Tool} (hin : tool ∈ items) (hne : tool.name ≠ [])
    (hallowed : active.isToolAllowed s tool.name = true) :
    Selects config active items s tool.name tool := by
  obtain ⟨hsne, hchars⟩ := validateServerName_ok.mp hname
  have hparse := parse_joined hsne hchars hne
  constructor
  · intro request hasks
    have hfind : items.find? (fun other => other.name = tool.name) = some tool := by
      cases hfind : items.find? (fun other => other.name = tool.name) with
      | none => simpa using List.find?_eq_none.mp hfind tool hin
      | some found =>
        have hsame : found.name = tool.name := by simpa using List.find?_some hfind
        rw [List.inj_on_of_nodup_map hnodup (List.mem_of_find?_eq_some hfind) hin hsame]
    apply under_mono _ (schema_replied hready hs hparse hasks)
    rintro _ _ rfl
    rw [schemaReply, if_pos hallowed, hfind]
    rfl
  · intro request object hinvokes
    apply under_mono _ (invoke_under hready hs hparse object request)
    intro _ calls hcalls
    exact (hcalls hinvokes).1 ⟨isToolAllowed_server hallowed, hallowed, tool, hin, rfl⟩

/-- Every advertised tool of a server is callable under the name that its row
shows if and only if the names of its allowed tools are clean and no longer than
the cap. -/
theorem callable_exact (config : TomlConfig) (selected : Text) (hv : Valid config selected)
    (active : ActiveNamespace) (hnew : ActiveNamespace.new config selected = .ok active)
    (s : Text) (hs : s ∈ config.servers) (items : List Tool) (hnodup : (items.map Tool.name).Nodup)
    (hne : ∀ tool ∈ items, tool.name ≠ []) :
    Callable config active items s ↔ ∀ tool ∈ items, active.isToolAllowed s tool.name = true →
      Clean tool.name ∧ tool.name.length ≤ 200 := by
  have hc := covers_of_valid hv hnew
  have hname := validateServerName_ok.mpr (hv.names s hs)
  have hmem : ∀ row, row ∈ offeredRows active items s ↔ row.server = s ∧ row.tool ∈ items ∧
      active.isToolAllowed s row.tool.name = true := by
    intro row
    simp only [offeredRows, List.mem_map, List.mem_filter]
    constructor
    · rintro ⟨tool, ⟨hin, hallowed⟩, rfl⟩
      exact ⟨rfl, hin, hallowed⟩
    · rintro ⟨rfl, hin, hallowed⟩
      exact ⟨row.tool, ⟨hin, hallowed⟩, rfl⟩
  constructor
  · intro h tool hin hallowed
    have hselected := (listing_iff (Q := fun rows => ∀ row ∈ rows,
      Selects config active items s (Row.shownAs row) row.tool) hc hv.servers hs).mp h.selected
    have hrow := hselected ⟨s, tool⟩ ((hmem _).mpr ⟨rfl, hin, hallowed⟩)
    exact identifier_eq_self.mp (selects_name hv.servers hs hname hrow).symm
  · intro h
    have hshown : ∀ row ∈ offeredRows active items s, Row.shownAs row = row.tool.name := by
      intro row hrow
      obtain ⟨_, hin, hallowed⟩ := (hmem row).mp hrow
      exact identifier_eq_self.mpr (h row.tool hin hallowed)
    constructor
    · apply (listing_iff (Q := fun rows => (rows.map Row.shownAs).Nodup) hc hv.servers hs).mpr
      rw [List.map_congr_left hshown, offeredRows, List.map_map]
      exact hnodup.sublist (List.Sublist.map Tool.name List.filter_sublist)
    · apply (listing_iff (Q := fun rows => ∀ row ∈ rows,
        Selects config active items s (Row.shownAs row) row.tool) hc hv.servers hs).mpr
      intro row hrow
      obtain ⟨_, hin, hallowed⟩ := (hmem row).mp hrow
      rw [hshown row hrow]
      exact name_selects hv.servers hs hname hnodup hin (hne row.tool hin) hallowed

def padded : List Tool := [⟨"a".toList, none, []⟩, ⟨"a ".toList, none, []⟩]

theorem callable_fails : Valid gateConfig [] ∧ ActiveNamespace.new gateConfig [] = .ok gateActive ∧
    (padded.map Tool.name).Nodup ∧ (∀ tool ∈ padded, tool.name ≠ []) ∧
      ¬ Callable gateConfig gateActive padded "s".toList := by
  refine ⟨gate_valid, rfl, by decide, by simp [padded], fun h => ?_⟩
  have hcovers : Covers gateConfig gateActive := covers_of_valid gate_valid rfl
  have hrows := (listing_iff (Q := fun rows => (rows.map Row.shownAs).Nodup) hcovers
    gate_valid.servers (by decide)).mp h.distinct
  have hsame : (offeredRows gateActive padded "s".toList).map Row.shownAs =
      ["a".toList, "a".toList] := by decide
  rw [hsame] at hrows
  exact absurd hrows (by decide)

def distinctPair : List Tool := [⟨"a".toList, none, []⟩, ⟨"b".toList, none, []⟩]

theorem callable_exact_gate : Callable gateConfig gateActive distinctPair "s".toList := by
  rw [callable_exact gateConfig [] gate_valid gateActive rfl "s".toList (by decide) distinctPair
    (by decide) (by simp [distinctPair])]
  simp only [distinctPair, List.forall_mem_cons]
  refine ⟨fun _ => ?_, fun _ => ?_, fun _ h => absurd h List.not_mem_nil⟩
  · rw [← identifier_eq_self]
    decide
  · rw [← identifier_eq_self]
    decide

end Callable

end FaninMcp.ToolAddresses
