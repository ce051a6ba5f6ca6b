import FaninMcp.Discovery
import FaninMcp.Foundation.JsonRoundTrip
import FaninMcp.InventoryConvergence

/-!
# Discovery and dispatch agree

The row filter of `list_tools`, the lookup of `get_tool_schema` and the check of
`invoke_tool` are written separately. Against a fixed inventory they decide the
same thing of every name, for any number of interleaved requests.
-/

set_option autoImplicit false

namespace FaninMcp.DiscoveryAgreement
open Foundation.RustText Foundation.JsonText Foundation.AsyncPrograms FaninMcp.ConfigModel
  FaninMcp.ErrorModel FaninMcp.NamespaceResolver FaninMcp.ConfigValidation FaninMcp.NamespaceAcl
  FaninMcp.RegistryModel FaninMcp.RegistryWorld FaninMcp.RegistryProtocol FaninMcp.RegistryObeys
  FaninMcp.SingleFlight FaninMcp.CancellationSafety FaninMcp.EntryLineage
  FaninMcp.InventoryConvergence FaninMcp.RegistryWalk FaninMcp.MetaTools FaninMcp.MetaAcl
  FaninMcp.PermissionLayer
  FaninMcp.Discovery

section Protocol
variable {config : TomlConfig} {active : ActiveNamespace}

theorem obeys_listRows (servers : List Text) :
    Obeys registryProtocol (fun _ => Clean) (listRows config active servers []) {} :=
  listRows_walk servers (fun _ _ _ => obeys_inventory config) (fun _ _ h => h) (fun _ _ h => h)
    (fun _ _ h => h) [] clean_idle

theorem invokeRaced_clean {server tool : Text} {raw : JsonObject} :
    Obeys registryProtocol (fun _ => Clean) (invokeRaced config server tool raw) {} := by
  apply obeys_interruptible_anywhere (fun _ => trivial) (fun _ _ => rfl)
  · exact fun φ => ⟨trivial, fun _ => clean_idle⟩
  · refine obeys_bind (obeys_mono (fun out ψ hψ => ?_)
      (obeys_callTool config tool (some raw) clean_idle))
    cases out <;> exact hψ

theorem dispatch_clean (request : Request) :
    Obeys registryProtocol (fun _ => Clean)
      (dispatchTool (.withRegistry config active) request) {} := by
  have hhandled := @dispatch_handled config active request
  generalize dispatchTool _ request = p at hhandled ⊢
  cases hhandled with
  | refused e => exact clean_idle
  | listing servers _ => exact obeys_listRows servers
  | schema name server tool => 
    exact obeys_bind (obeys_mono (fun _ _ => comes_same.mp) (obeys_inventory config clean_idle))
  | call server tool raw => exact invokeRaced_clean

end Protocol

section Inventories
variable {config : TomlConfig} {active : ActiveNamespace} {s : Text} {items : List Tool} {i : ℕ}

/-- The task's own answers are as expected, and whenever `s` shows its list, to
whichever task, it is its inventory. -/
structure Steadily (s : Text) (items : List Tool) (i : ℕ) {agg : Aggregator}
    (_ : List (MetaEvent agg)) (_ : Shared) (e : MetaEvent agg) : Prop where
  own : ∀ op ans, e = .act i op ans → Answering s items op ans
  shown : ∀ j entry l, e = .act j (.listReply entry) (.ok l) → entry.server = s → l.tools = items

/-- Every list of the server that is at hand is its inventory. -/
structure Stocked (s : Text) (items : List Tool) (φ : ℕ → Trail) (σ : Shared) : Prop where
  cached : ∀ entry l, σ.cached entry = some l → entry.server = s → l.tools = items
  fetched : ∀ i entry l, (φ i).fetched = some (entry, l) → entry.server = s → l.tools = items

theorem fetched_after {φ : Trail} {op : Op} {ans : Ans op} {entry : Entry} {l : Listing}
    (h : (after φ op ans).fetched = some (entry, l)) : φ.fetched = some (entry, l) ∨
      ∃ reply : Ans (.listReply entry), HEq reply ans ∧ op = .listReply entry ∧ reply = .ok l := by
  cases op <;> first
    | exact Or.inl h
    | cases h
    | (cases ans <;> exact Or.inl h)
    | skip
  case serve =>
    cases ans with
    | error _ => exact Or.inl h
    | ok _ => cases h
  case swapDirty =>
    cases ans with
    | false => exact Or.inl h
    | true => cases h
  case listReply =>
    cases ans with
    | error _ => exact Or.inl h
    | ok tools =>
      cases h
      exact Or.inr ⟨_, HEq.rfl, rfl, rfl⟩

theorem stocked_reset {φ : ℕ → Trail} {σ : Shared} (h : Stocked s items φ σ) (j : ℕ) :
    Stocked s items (Function.update φ j {}) σ :=
  ⟨h.cached, fun k entry l hk =>
    h.fetched k entry l (RegistryInvariant.of_reset (f := Trail.fetched) rfl hk)⟩

theorem run_stocked {tools : Entry → List Tool}
    {es : List (MetaEvent (.withRegistry config active))}
    {σ : MetaSystem (.withRegistry config active)}
    (h : Run (Shared.initial tools) (Steadily s items i) es σ) :
    Stocked s items (fun j => trail registryProtocol j es) σ.shared := by
  refine run_phases (P := registryProtocol) (J := Stocked s items) dispatch_clean ?_ h
  refine ⟨?_, fun φ σ j hJ _ => stocked_reset hJ j, fun es σ j op ans σ' hJ hk hm hp => ?_,
    fun es σ j hJ _ => ?_, fun es σ e σ' hJ _ ho => ?_⟩
  · refine ⟨?_, ?_⟩ <;> simp [Shared.initial]
  · rw [hp.2]
    refine ⟨fun entry l hl => ?_, fun k entry l hf => ?_⟩
    · exact (cached_after hm hl).elim (hJ.cached entry l) fun hf => hJ.fetched j entry l hf.1
    · rcases eq_or_ne k j with rfl | hne
      · rw [Function.update_self] at hf
        rcases fetched_after hf with hold | ⟨reply, hans, rfl, rfl⟩
        · exact hJ.fetched k entry l hold
        · cases hans
          exact hk.shown k entry l rfl
      · rw [Function.update_of_ne hne] at hf
        exact hJ.fetched k entry l hf
  · have hreset := stocked_reset hJ j
    exact ⟨hreset.cached, hreset.fetched⟩
  · refine ⟨fun entry l hl => hJ.cached entry l ?_, hJ.fetched⟩
    rwa [(cached_outside ho).1] at hl

theorem finished_under {post : Request → Reply → List Forwarded → Prop}
    (hprog : ∀ r, Under (Steady s items) callsProtocol (post r)
      (dispatchTool (.withRegistry config active) r) [])
    {tools : Entry → List Tool} {es later earlier : List (MetaEvent (.withRegistry config active))}
    {σ : MetaSystem (.withRegistry config active)}
    (h : Run (Shared.initial tools) (Steadily s items i) es σ) {request : Request} {reply : Reply}
    (hes : es = later ++ .finish i request reply::earlier) :
    post request reply (trail callsProtocol i earlier) := by
  have hr := run_strengthen
    (I := fun es σ => Stocked s items (fun j => trail registryProtocol j es) σ)
    (fun _ _ hr => run_stocked hr) h
  obtain ⟨τ, τ', hτ, _, hs⟩ := run_event hr hes
  refine run_under (fun es σ op ans σ' hk hp => ?_) hprog hτ hs
  cases op <;> first | exact hk.1.own _ ans rfl | skip
  case readTools entry => exact hk.2.cached entry ans hp.1

end Inventories

section Requests
variable {config : TomlConfig} {active : ActiveNamespace} {s t : Text} {items : List Tool}

/-- The server is visible, the tool passes its filter and is in the inventory. -/
def Offered (active : ActiveNamespace) (items : List Tool) (s t : Text) : Prop :=
  active.isServerAllowed s = true ∧ active.isToolAllowed s t = true ∧
    ∃ found ∈ items, found.name = t

def Says (result : CallToolResult) (json : Json) : Prop :=
  result.isError = some false ∧
    ∃ text, result.content = [textContent text] ∧ parse text = some json

/-- A row for the tool under the server, and in what is sent. -/
def Emits (reply : Reply) (s t : Text) : Prop :=
  ∃ shown row, reply = .rows shown ∧ row ∈ shown ∧ row.server = s ∧ row.tool.name = t ∧
    ∃ rows fields, Says reply.asResult (.arr rows) ∧ .obj fields ∈ rows ∧
      get fields "server".toList = some (.str s) ∧
      get fields "tool".toList = some (.str (sanitizeUpstreamIdentifier t))

def ReturnsSchema (reply : Reply) : Prop :=
  ∃ server found, reply = .schema server found ∧
    Says reply.asResult (sanitizeSchemaMetadata (.obj found.inputSchema))

theorem emits_of_row {shown : List Row} {row : Row} (h : row ∈ shown) :
    Emits (.rows shown) row.server row.tool.name :=
  ⟨shown, row, rfl, h, rfl, rfl, shown.map Row.json, _, ⟨rfl, _, rfl, parse_rendered _⟩,
    List.mem_map_of_mem h, rfl, rfl⟩

theorem returnsSchema_sent (server : Text) (found : Tool) :
    ReturnsSchema (.schema server found) :=
  ⟨server, found, rfl, rfl, _, rfl, parse_rendered _⟩

/-- `list_tools`, without a filter or for the server. -/
def Lists (s : Text) (request : Request) : Prop :=
  request.name = "list_tools".toList ∧
    (stringArgument request.arguments "server".toList = none ∨
      stringArgument request.arguments "server".toList = some s)

def AsksSchema (s t : Text) (request : Request) : Prop :=
  request.name = "get_tool_schema".toList ∧
    stringArgument request.arguments "name".toList = some (s ++ "__".toList ++ t)

def Invokes (s t : Text) (object : JsonObject) (request : Request) : Prop :=
  request.name = "invoke_tool".toList ∧ ∃ args, request.arguments = some args ∧
    get args "name".toList = some (.str (s ++ "__".toList ++ t)) ∧
      get args "arguments".toList = some (.obj object)

/-- The first separator of a joined name is the one it was joined with, as no
server name has an underscore. -/
theorem parse_joined (hs : s ≠ []) (hn : ∀ c ∈ s, isServerNameChar c = true) (ht : t ≠ []) :
    parseServerTool (s ++ "__".toList ++ t) = some (s, t) := by
  have hfree : '_' ∉ s := fun h => absurd (hn '_' h) (by decide)
  have hsplit := @splitOnce_append '_' ['_'] s t hfree
  rw [parseServerTool, show "__".toList = ['_', '_'] from rfl, hsplit]
  simp [hs, ht]

/-- Among the rows for the server `s` are exactly those of its allowed tools, if
it is one of the servers listed. -/
def ShowsRows (active : ActiveNamespace) (items : List Tool) (s : Text) (servers : List Text)
    (rows shown : List Row) : Prop :=
  ∀ row, row.server = s → (row ∈ shown ↔ row ∈ rows ∨
    s ∈ servers ∧ row.tool ∈ items ∧ active.isToolAllowed s row.tool.name = true)

theorem showsRows_cons {server : Text} {rest : List Text} {rows shown : List Row}
    {tools : List Tool} (htools : server = s → tools = items)
    (h : ShowsRows active items s rest (rows ++ ((tools.filter fun tool =>
      active.isToolAllowed server tool.name).map (Row.mk server))) shown) :
    ShowsRows active items s (server::rest) rows shown := by
  intro row hrow
  have hnew : row ∈ (tools.filter fun tool => active.isToolAllowed server tool.name).map
      (Row.mk server) ↔
      s = server ∧ row.tool ∈ items ∧ active.isToolAllowed s row.tool.name = true := by
    obtain ⟨home, tool⟩ := row
    obtain rfl : home = s := hrow
    simp only [List.mem_map, List.mem_filter, Row.mk.injEq]
    constructor
    · rintro ⟨_, ⟨hin, hallowed⟩, rfl, rfl⟩
      exact ⟨rfl, htools rfl ▸ hin, hallowed⟩
    · rintro ⟨rfl, hin, hallowed⟩
      exact ⟨tool, ⟨(htools rfl).symm ▸ hin, hallowed⟩, rfl, rfl⟩
  rw [h row hrow, List.mem_append, hnew, List.mem_cons, or_assoc, ← or_and_right]

theorem listRows_yields (hready : ∀ entry ∈ config.servers.entries, ServerReady entry.2)
    (servers : List Text) (hs : ∀ server ∈ servers, server ∈ config.servers) (rows : List Row) :
    Yields s items (listRows config active servers rows)
      (fun reply => ∃ shown, reply = .rows shown ∧ ShowsRows active items s servers rows shown) := by
  induction servers generalizing rows with
  | nil => exact yields_done ⟨rows, rfl, fun row _ => by simp⟩
  | cons server rest ih =>
    obtain ⟨hin, hrest⟩ := List.forall_mem_cons.mp hs
    rw [listRows, if_neg (by simpa [hasServer] using hin)]
    refine yields_bind (inventory_yields hready hin) ?_
    rintro _ ⟨tools, rfl, htools⟩
    refine yields_mono ?_ (ih hrest _)
    rintro _ ⟨shown, rfl, hshown⟩
    exact ⟨shown, rfl, showsRows_cons htools hshown⟩

theorem emits_rows {servers : List Text} {shown : List Row}
    (h : ShowsRows active items s servers [] shown)
    (hs : active.isServerAllowed s = true → s ∈ servers) :
    Emits (.rows shown) s t ↔ Offered active items s t := by
  constructor
  · rintro ⟨_, row, hshown, hrow, hserver, rfl, -⟩
    cases hshown
    obtain ⟨_, htool, hallowed⟩ := ((h row hserver).mp hrow).resolve_left (by simp)
    exact ⟨isToolAllowed_server hallowed, hallowed, row.tool, htool, rfl⟩
  · rintro ⟨hvisible, hallowed, found, hfound, rfl⟩
    exact @emits_of_row shown ⟨s, found⟩
      ((h ⟨s, found⟩ rfl).mpr (Or.inr ⟨hs hvisible, hfound, hallowed⟩))

/-- A listing that is to show the rows of the server goes through it if it is
visible, and is refused only if it is not. -/
theorem lists_cases (hc : Covers config active) (hs : s ∈ config.servers) {request : Request}
    (hl : Lists s request) :
    (active.isServerAllowed s = false ∧
      ∃ e, dispatchTool (.withRegistry config active) request = .done (.failed e)) ∨
    ∃ servers, dispatchTool (.withRegistry config active) request =
        listRows config active servers [] ∧
      (∀ server ∈ servers, server ∈ config.servers) ∧ servers.Nodup ∧
        (active.isServerAllowed s = true → s ∈ servers) := by
  rw [dispatchTool, if_pos hl.1, handleListTools]
  simp only [Aggregator.withRegistry]
  rcases hl.2 with hnone | hsome
  · rw [hnone]
    exact Or.inr ⟨_, rfl, fun server hin => hc server ((mem_allowedServers active server).mp hin),
      active.servers.sort_nodup _, (mem_allowedServers active s).mpr⟩
  · rw [hsome]
    dsimp only
    rw [if_neg (by simpa [hasServer] using hs)]
    split_ifs with hdenied
    · exact Or.inl ⟨by simpa using hdenied, _, rfl⟩
    · exact Or.inr ⟨[s], rfl, by simpa using hs, List.nodup_singleton s,
        fun _ => List.mem_singleton_self s⟩

theorem list_under (hc : Covers config active)
    (hready : ∀ entry ∈ config.servers.entries, ServerReady entry.2) (hs : s ∈ config.servers)
    (request : Request) : Under (Steady s items) callsProtocol
      (fun reply _ => Lists s request → (Emits reply s t ↔ Offered active items s t))
      (dispatchTool (.withRegistry config active) request) [] := by
  by_cases hl : Lists s request
  · rcases lists_cases hc hs hl with ⟨hdenied, e, he⟩ | ⟨servers, hr, hin, _, hvisible⟩
    · rw [he]
      intro _
      refine iff_of_false ?_ ?_
      · rintro ⟨_, _, h, _⟩
        cases h
      · rintro ⟨hallowed, _⟩
        exact absurd (hdenied.symm.trans hallowed) (by simp)
    · rw [hr]
      refine under_of_yields (listRows_yields hready servers hin []) ?_
      rintro _ ⟨shown, rfl, hshown⟩ _
      exact emits_rows hshown hvisible
  · exact under_always (fun _ _ h => absurd h hl) _ _

theorem asksSchema_eq (hs : s ∈ config.servers)
    (hparse : parseServerTool (s ++ "__".toList ++ t) = some (s, t)) {request : Request}
    (ha : AsksSchema s t request) : dispatchTool (.withRegistry config active) request =
      if active.isToolAllowed s t then inventory config s >>= fun out => .done (schemaIn s t out)
      else .done (.failed (.namespaceDenied s (some t))) := by
  rw [dispatchTool, if_neg (by rw [ha.1]; decide), if_pos ha.1, getToolSchema_eq ha.2 hparse,
    if_pos hs]

theorem returnsSchema_iff {tools : List Tool} (hallowed : active.isToolAllowed s t = true) :
    ReturnsSchema (schemaIn s t (.ok tools)) ↔ Offered active tools s t := by
  rw [schemaIn]
  cases hfind : tools.find? (fun tool => tool.name = t) with
  | none =>
    refine iff_of_false ?_ ?_
    · rintro ⟨_, _, h, -⟩
      cases h
    · rintro ⟨_, _, found, hin, hname⟩
      exact absurd hname (by simpa using List.find?_eq_none.mp hfind found hin)
  | some found =>
    refine iff_of_true (returnsSchema_sent s found) ⟨isToolAllowed_server hallowed, hallowed, found, ?_, ?_⟩
    · exact List.mem_of_find?_eq_some hfind
    · simpa using List.find?_some hfind

theorem schema_under (hready : ∀ entry ∈ config.servers.entries, ServerReady entry.2)
    (hs : s ∈ config.servers) (hparse : parseServerTool (s ++ "__".toList ++ t) = some (s, t))
    (request : Request) : Under (Steady s items) callsProtocol
      (fun reply _ => AsksSchema s t request → (ReturnsSchema reply ↔ Offered active items s t))
      (dispatchTool (.withRegistry config active) request) [] := by
  by_cases ha : AsksSchema s t request
  · rw [asksSchema_eq hs hparse ha]
    split_ifs with hallowed
    · refine under_bind (under_of_yields (inventory_yields hready hs) ?_)
      rintro _ ⟨tools, rfl, htools⟩ _
      obtain rfl := htools rfl
      exact returnsSchema_iff hallowed
    · intro _
      refine iff_of_false ?_ fun hoffered => hallowed hoffered.2.1
      rintro ⟨_, _, h, -⟩
      cases h
  · exact under_always (fun _ _ h => absurd h ha) _ _

theorem invoke_under (hready : ∀ entry ∈ config.servers.entries, ServerReady entry.2)
    (hs : s ∈ config.servers) (hparse : parseServerTool (s ++ "__".toList ++ t) = some (s, t))
    (object : JsonObject) (request : Request) : Under (Steady s items) callsProtocol
      (fun _ calls => Invokes s t object request →
        (Offered active items s t → calls = [(s, t, some object)]) ∧
          (¬ Offered active items s t → calls = []))
      (dispatchTool (.withRegistry config active) request) [] := by
  by_cases hi : Invokes s t object request
  · obtain ⟨hname, args, hargs, hjoined, hobject⟩ := hi
    rw [dispatchTool, if_neg (by rw [hname]; decide), if_neg (by rw [hname]; decide),
      if_pos hname, hargs, handleInvokeTool, hjoined]
    simp only [Option.bind_some, Json.asStr, hparse, Aggregator.withRegistry, hobject,
      Json.asObject]
    rw [if_neg (by simpa [hasServer] using hs)]
    split_ifs with hdenied
    · exact fun _ => ⟨fun hoffered => by simp [hoffered.2.1] at hdenied, fun _ => rfl⟩
    · simp only [Bool.not_eq_true', Bool.not_eq_false] at hdenied
      have hoffered : Offered active items s t ↔ ∃ found ∈ items, found.name = t :=
        ⟨fun h => h.2.2, fun h => ⟨isToolAllowed_server hdenied, hdenied, h⟩⟩
      apply under_interruptible (fun ans hg => hg) (fun _ _ => rfl)
      refine under_bind (under_mono (fun out calls hcalls => ?_)
        (callTool_under hready hs t (some object) []))
      have hpost : (Offered active items s t → calls = [(s, t, some object)]) ∧
          (¬ Offered active items s t → calls = []) := by
        rw [hoffered]
        exact ⟨fun h => by rw [hcalls, if_pos h]; rfl, fun h => by rw [hcalls, if_neg h]⟩
      cases out <;> exact fun _ => hpost
  · exact under_always (fun _ _ h => absurd h hi) _ _

end Requests

/-- The task's request is finished, with a reply and the calls it has forwarded. -/
def Finished {agg : Aggregator} (es : List (MetaEvent agg)) (i : ℕ) (request : Request)
    (reply : Reply) (calls : List Forwarded) : Prop :=
  ∃ later earlier, es = later ++ .finish i request reply::earlier ∧
    trail callsProtocol i earlier = calls

/-- In every run against a fixed inventory, a row for the tool, its schema and a
forwarded call are each there exactly when the server is visible, the tool
passes its filter and is in the inventory. -/
theorem discovery_agrees (config : TomlConfig) (selected : Text) (hv : Valid config selected)
    (active : ActiveNamespace) (hnew : ActiveNamespace.new config selected = .ok active)
    (s : Text) (hs : s ∈ config.servers) (items : List Tool) (t : Text) (ht : t ≠ [])
    (tools : Entry → List Tool) (i : ℕ) {es : List (MetaEvent (.withRegistry config active))}
    {σ : MetaSystem (.withRegistry config active)}
    (h : Run (Shared.initial tools) (Steadily s items i) es σ) :
    (∀ request reply calls, Finished es i request reply calls → Lists s request →
      (Emits reply s t ↔ Offered active items s t)) ∧
    (∀ request reply calls, Finished es i request reply calls → AsksSchema s t request →
      (ReturnsSchema reply ↔ Offered active items s t)) ∧
    ∀ request reply calls object, Finished es i request reply calls →
      Invokes s t object request →
      (calls = [(s, t, some object)] ↔ Offered active items s t) ∧
        (¬ Offered active items s t → calls = []) := by
  have hc := covers_of_valid hv hnew
  have hparse := parse_joined (hv.names s hs).1 (hv.names s hs).2 ht
  refine ⟨?_, ?_, ?_⟩
  · rintro request reply calls ⟨later, earlier, hes, rfl⟩
    exact finished_under (list_under hc hv.servers hs) h hes
  · rintro request reply calls ⟨later, earlier, hes, rfl⟩
    exact finished_under (schema_under hv.servers hs hparse) h hes
  · rintro request reply calls object ⟨later, earlier, hes, rfl⟩ hi
    obtain ⟨hyes, hno⟩ := finished_under (invoke_under hv.servers hs hparse object) h hes hi
    refine ⟨⟨fun hcalls => ?_, hyes⟩, hno⟩
    by_contra hnot
    rw [hno hnot] at hcalls
    cases hcalls

section Gate

def schemaRequest : Request :=
  ⟨"get_tool_schema".toList, some [("name".toList, .str "s__a".toList)]⟩

/-- The tool is listed, its schema is looked up, and it is called. -/
def discovering : List (Choice (metaService gate) Hint Outside) :=
  .spawn 0 listRequest :: goes 0 17 ++ .outside (.snapshot 0) :: goes 0 11 ++
    .finish 0 :: .spawn 1 schemaRequest :: goes 1 7 ++ .finish 1 :: .spawn 2 invokeRequest ::
    goes 2 17 ++ [.finish 2]

def isProbe (tools : List Tool) : Bool :=
  tools.map (fun tool => (tool.name, tool.description, tool.inputSchema.isEmpty)) =
    [("a".toList, none, true)]

theorem isProbe_sound {tools : List Tool} (h : isProbe tools = true) :
    tools = [⟨"a".toList, none, []⟩] := by
  match tools with
  | [⟨name, description, schema⟩] =>
    simp only [isProbe, List.map_cons, List.map_nil, decide_eq_true_eq, List.cons.injEq,
      Prod.mk.injEq, List.isEmpty_iff, and_true] at h
    obtain ⟨rfl, rfl, rfl⟩ := h
    rfl
  | [] | _::_::_ => simp [isProbe] at h

def gateInventory : List Tool := [⟨"a".toList, none, []⟩]

def steadily : MetaEvent gate → Bool
  | .act _ (.spawnTransport _) out | .act _ (.headerName _) out | .act _ (.headerValue _) out =>
    out.isOk
  | .act _ (.serve _) out => out.isOk
  | .act _ (.listReply _) (.ok l) => isProbe l.tools
  | .act _ (.listReply _) (.error _) => false
  | .act _ (.storeGet _ _) _ | .act _ (.envVar _) _ => false
  | .act _ .poll fired => !fired
  | .act _ .cancelled fired => !fired
  | _ => true

theorem steadily_sound (i : ℕ) (es : List (MetaEvent gate)) (σ : Shared) (e : MetaEvent gate)
    (h : steadily e = true) : Steadily "s".toList gateInventory i es σ e := by
  refine ⟨?_, ?_⟩
  · rintro op ans rfl
    cases op <;> first | trivial | skip
    case spawnTransport | headerName | headerValue =>
      cases ans with
      | error _ => cases h
      | ok _ => rfl
    case serve =>
      cases ans with
      | error _ => cases h
      | ok entry => exact ⟨entry, rfl⟩
    case listReply =>
      cases ans with
      | error _ => cases h
      | ok l => exact ⟨l, rfl, fun _ => isProbe_sound h⟩
    case poll | cancelled =>
      have hfired : ans = false := by simpa [steadily] using h
      exact hfired
  · rintro j entry l rfl _
    exact isProbe_sound h

def finishes (i : ℕ) (test : Request → Bool) (es : List (MetaEvent gate)) : Bool :=
  es.any fun e =>
    match e with
    | .finish j request _ => j = i && test request
    | _ => false

theorem finishes_sound {i : ℕ} {test : Request → Bool} {es : List (MetaEvent gate)}
    (h : finishes i test es = true) :
    ∃ request reply calls, Finished es i request reply calls ∧ test request = true := by
  obtain ⟨e, hin, htest⟩ := List.any_eq_true.mp h
  obtain ⟨later, earlier, rfl⟩ := List.append_of_mem hin
  cases e with
  | finish j request reply =>
    simp only [Bool.and_eq_true, decide_eq_true_eq] at htest
    obtain ⟨rfl, htest⟩ := htest
    exact ⟨request, reply, _, ⟨later, earlier, rfl, rfl⟩, htest⟩
  | _ => cases htest

def listsProbe (request : Request) : Bool :=
  request.name = "list_tools".toList &&
    stringArgument request.arguments "server".toList = some "s".toList

def asksProbe (request : Request) : Bool :=
  request.name = "get_tool_schema".toList &&
    stringArgument request.arguments "name".toList = some "s__a".toList

def invokesProbe (request : Request) : Bool :=
  request.name = "invoke_tool".toList &&
    match request.arguments with
    | some [(first, .obj []), (second, .str name)] =>
      first = "arguments".toList && second = "name".toList && name = "s__a".toList
    | _ => false

theorem invokesProbe_sound {request : Request} (h : invokesProbe request = true) :
    Invokes "s".toList "a".toList [] request := by
  simp only [invokesProbe, Bool.and_eq_true, decide_eq_true_eq] at h
  obtain ⟨hname, hrest⟩ := h
  split at hrest
  · rename_i first second name hargs
    simp only [Bool.and_eq_true, decide_eq_true_eq] at hrest
    obtain ⟨⟨rfl, rfl⟩, rfl⟩ := hrest
    exact ⟨hname, _, hargs, rfl, rfl⟩
  · cases hrest

theorem discovering_runs : ∃ es σ, Run (W := registryWorld) (V := metaService gate)
    (Shared.initial probeTools) (fun _ _ e => steadily e = true) es σ ∧
      (finishes 0 listsProbe es && finishes 1 asksProbe es && finishes 2 invokesProbe es) = true :=
  playAll_reaches responder discovering (by decide)

theorem discovery_agrees_gate : ∃ (es : List (MetaEvent gate)) (σ : MetaSystem gate),
    Run (Shared.initial probeTools) (Steadily "s".toList gateInventory 0) es σ ∧
    (∃ request reply calls, Finished es 0 request reply calls ∧ Emits reply "s".toList "a".toList) ∧
    (∃ request reply calls, Finished es 1 request reply calls ∧ ReturnsSchema reply) ∧
    ∃ request reply calls, Finished es 2 request reply calls ∧
      calls = [("s".toList, "a".toList, some [])] := by
  obtain ⟨es, σ, hr, hgoal⟩ := discovering_runs
  simp only [Bool.and_eq_true] at hgoal
  obtain ⟨⟨hlist, hask⟩, hinvoke⟩ := hgoal
  have h := fun i => discovery_agrees gateConfig [] gate_valid gateActive rfl "s".toList
    (by decide) gateInventory "a".toList (by decide) probeTools i
    (run_weaken (steadily_sound i) hr)
  have hoffered : Offered gateActive gateInventory "s".toList "a".toList :=
    ⟨by decide, by decide, ⟨"a".toList, none, []⟩, List.mem_singleton_self _, rfl⟩
  obtain ⟨request, reply, calls, hfin, htest⟩ := finishes_sound hlist
  simp only [listsProbe, Bool.and_eq_true, decide_eq_true_eq] at htest
  obtain ⟨request', reply', calls', hfin', htest'⟩ := finishes_sound hask
  simp only [asksProbe, Bool.and_eq_true, decide_eq_true_eq] at htest'
  obtain ⟨request₃, reply₃, calls₃, hfin₃, htest₃⟩ := finishes_sound hinvoke
  refine ⟨es, σ, run_weaken (steadily_sound 0) hr, ⟨request, reply, calls, hfin, ?_⟩,
    ⟨request', reply', calls', hfin', ?_⟩, request₃, reply₃, calls₃, hfin₃, ?_⟩
  · exact ((h 0).1 request reply calls hfin ⟨htest.1, Or.inr htest.2⟩).mpr hoffered
  · exact ((h 1).2.1 request' reply' calls' hfin' htest').mpr hoffered
  · exact ((h 2).2.2 request₃ reply₃ calls₃ [] hfin₃ (invokesProbe_sound htest₃)).1.mpr hoffered

end Gate

end FaninMcp.DiscoveryAgreement
