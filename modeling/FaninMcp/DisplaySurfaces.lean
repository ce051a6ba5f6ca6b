import FaninMcp.SchemaAnnotations
import FaninMcp.ToolAddresses
import FaninMcp.TocCompleteness

/-!
# The display surfaces

What a client is shown of what upstreams and the configuration have to say: the
rows of a listing, the annotations of a schema, the lines of the table of
contents. Everything passes the same class of characters, so that nothing
invisible gets through but the directional marks, which the class leaves out.
-/

set_option autoImplicit false

namespace FaninMcp.DisplaySurfaces
open Foundation.RustText Foundation.JsonText Foundation.AsyncPrograms FaninMcp.ConfigModel
  FaninMcp.ErrorModel FaninMcp.ConfigValidation FaninMcp.NamespaceAcl FaninMcp.CapabilityCache
  FaninMcp.CacheFile FaninMcp.RegistryModel FaninMcp.MetaTools FaninMcp.MetaAcl
  FaninMcp.PermissionLayer FaninMcp.Discovery FaninMcp.DiscoveryAgreement FaninMcp.StartupSufficiency FaninMcp.DisplayText
  FaninMcp.SchemaAnnotations FaninMcp.AnswerableRequests FaninMcp.ToolAddresses
  FaninMcp.TableOfContents FaninMcp.TocCompleteness

def Visible (text : Text) : Prop := ∀ c ∈ text, isInvisible c = false

section Lines
variable {config : TomlConfig} {server : Text} {P : Char → Prop}

/-- What holds of printable ASCII and of the space that can be trimmed. -/
structure Ordinary (P : Char → Prop) : Prop where
  printable : ∀ c, Printable c → P c
  space : ∀ c, isWhitespace c = true → shouldNeutralizeUpstreamChar c = false → P c

theorem ordinary_kept : Ordinary fun c => shouldNeutralizeUpstreamChar c = false := by
  constructor
  · rintro c ⟨hlo, hhi⟩
    simp only [shouldNeutralizeUpstreamChar, Bool.or_eq_false_iff, Bool.and_eq_false_iff,
      decide_eq_false_iff_not, beq_eq_false_iff_ne]
    omega
  · exact fun _ _ hkept => hkept

theorem ordinary_visible : Ordinary fun c => isInvisible c = false := by
  have hmark : ∀ c, Printable c → isMark c = false := by
    rintro c ⟨hlo, hhi⟩
    simp only [isMark, Bool.or_eq_false_iff, beq_eq_false_iff_ne]
    omega
  constructor
  · intro c hc
    rw [isInvisible_eq, ordinary_kept.printable c hc, hmark c hc]
    rfl
  · intro c hspace hkept
    rw [isInvisible_eq, hkept, Bool.false_or, Bool.eq_false_iff]
    intro hm
    rw [(isMark_kept hm).2] at hspace
    exact Bool.noConfusion hspace

theorem description_kept (d : Text) :
    ∀ c ∈ sanitizeListRowDescription d, shouldNeutralizeUpstreamChar c = false :=
  fun _ hc => blankOut_char (mem_trim (List.mem_of_mem_take hc))

theorem forall_trimEnd (hP : Ordinary P) {s : Text}
    (hs : ∀ c ∈ s, shouldNeutralizeUpstreamChar c = false) :
    (∀ c ∈ trimEnd s, P c) ↔ ∀ c ∈ s, P c := by
  have hsplit : trimEnd s ++ s.rtakeWhile isWhitespace = s := List.rdropWhile_append_rtakeWhile ..
  constructor
  · intro h
    rw [← hsplit, List.forall_mem_append]
    refine ⟨h, fun c hc => ?_⟩
    exact hP.space c (List.mem_rtakeWhile_imp hc) (hs c ((List.rtakeWhile_suffix _ _).subset hc))
  · exact fun h c hc => h c ((List.rdropWhile_prefix _ _).subset hc)

theorem forall_row (hP : Ordinary P) (hs : ∀ c ∈ server, isServerNameChar c = true) :
    (∀ c ∈ trimEnd (tocEntry config server), P c) ↔
      ∀ d, describedAs config server = some d → ∀ c ∈ sanitizeListRowDescription d, P c := by
  have hfront : ∀ Q : Char → Prop, (∀ c, Printable c → Q c) → ∀ c ∈ "- ".toList ++ server, Q c := by
    intro Q hQ
    rw [List.forall_mem_append]
    exact ⟨forall_printable hQ (by decide), fun c hc => hQ c (serverName_printable (hs c hc))⟩
  have hnewline : ∀ text : Text, trimEnd (text ++ ['\n']) = trimEnd text :=
    fun text => List.rdropWhile_concat_pos _ _ _ (by decide)
  have hkept := ordinary_kept.printable
  rcases tocEntry_cases config server with ⟨hentry, hnone⟩ | ⟨d, hd, hentry⟩
  · rw [hentry, hnewline, forall_trimEnd hP (hfront _ hkept)]
    refine iff_of_true (hfront P hP.printable) fun d hd => ?_
    simp [hnone d hd]
  · simp only [hd, Option.some.injEq, forall_eq']
    rw [hentry, hnewline, forall_trimEnd hP]
    · rw [List.forall_mem_append]
      exact ⟨fun h => (List.forall_mem_append.mp h.2).2, fun h => ⟨hfront P hP.printable,
        List.forall_mem_append.mpr ⟨forall_printable hP.printable (by decide), h⟩⟩⟩
    · rw [List.forall_mem_append]
      exact ⟨hfront _ hkept,
        List.forall_mem_append.mpr ⟨forall_printable hkept (by decide), description_kept d⟩⟩

end Lines

section Hints
variable (ns : ActiveNamespace) (found : TextMap (List (Text × Text)))

def cachedNames (server : Text) : List Text :=
  (((found.lookup server).getD []).filter fun tool => ns.isToolAllowed server tool.1).map Prod.fst

def roomFor (budget : ℕ) (names : List Text) : ℕ :=
  ((List.range' 1 names.length).reverse.find? fun shown =>
    byteLen (hintText names shown) ≤ budget).getD 0

/-- The names in the cache that there is room for, one server after another. -/
def listedNames : ℕ → List Text → List Text
  | _, [] => []
  | budget, server::rest =>
    let names := (cachedNames ns found server).map sanitizeUpstreamIdentifier
    let room := roomFor budget names
    (cachedNames ns found server).take room ++ listedNames
      (if room = 0 then budget else budget - byteLen (hintText names room)) rest

variable {ns found}

theorem cachedNames_hint (server : Text) :
    hintNames ns found server = (cachedNames ns found server).map sanitizeUpstreamIdentifier := by
  rw [hintNames, cachedNames, List.map_map]
  rfl

theorem findHint_room (budget : ℕ) (names : List Text) : (findHint budget names).getD [] =
    if roomFor budget names = 0 then [] else hintText names (roomFor budget names) := by
  have hsome : findHint budget names = ((List.range' 1 names.length).reverse.find? fun shown =>
      byteLen (hintText names shown) ≤ budget).map (hintText names) := by
    rw [findHint]
    induction (List.range' 1 names.length).reverse with
    | nil => rfl
    | cons shown fewer ih =>
      rw [List.findSome?_cons, List.find?_cons]
      by_cases hfits : byteLen (hintText names shown) ≤ budget
      · simp [hfits]
      · simpa [hfits] using ih
  rw [hsome, roomFor]
  cases hfind : (List.range' 1 names.length).reverse.find? fun shown =>
      byteLen (hintText names shown) ≤ budget with
  | none => rfl
  | some shown =>
    have hmem := List.mem_of_find?_eq_some hfind
    rw [List.mem_reverse, List.mem_range'_1] at hmem
    rw [Option.map_some, Option.getD_some, Option.getD_some, if_neg (by omega)]

theorem listedNames_cons (budget : ℕ) (server : Text) (rest : List Text) :
    listedNames ns found budget (server::rest) =
      (cachedNames ns found server).take (roomFor budget (hintNames ns found server)) ++
        listedNames ns found
          (budget - byteLen ((findHint budget (hintNames ns found server)).getD [])) rest := by
  rw [listedNames, findHint_room, cachedNames_hint]
  split_ifs <;> rfl

theorem listedNames_cached {budget : ℕ} {servers : List Text} {name : Text}
    (h : name ∈ listedNames ns found budget servers) :
    ∃ server ∈ servers, name ∈ cachedNames ns found server := by
  induction servers generalizing budget with
  | nil => cases h
  | cons server rest ih =>
    rw [listedNames_cons, List.mem_append] at h
    rcases h with hhere | hlater
    · exact ⟨server, List.mem_cons_self, List.mem_of_mem_take hhere⟩
    · obtain ⟨other, hother, hname⟩ := ih hlater
      exact ⟨other, List.mem_cons_of_mem _ hother, hname⟩

theorem forall_hint {P : Char → Prop} (hP : Ordinary P) (budget : ℕ) (server : Text) :
    (∀ c ∈ (findHint budget (hintNames ns found server)).getD [], P c) ↔
      ∀ name ∈ (cachedNames ns found server).take (roomFor budget (hintNames ns found server)),
        ∀ c ∈ sanitizeUpstreamIdentifier name, P c := by
  rw [findHint_room]
  split_ifs with hnone
  · rw [hnone]
    simp
  · rw [forall_hintText hP.printable]
    conv_lhs => rw [cachedNames_hint, ← List.map_take]
    rw [List.forall_mem_map, ← cachedNames_hint]

def tocLines (config : TomlConfig) (ns : ActiveNamespace) (found : TextMap (List (Text × Text)))
    (budget : ℕ) (servers : List Text) : List Text :=
  List.zipWith (· ++ ·) (tocRows config servers) (tocHints ns found budget servers)

theorem forall_lines {config : TomlConfig} {P : Char → Prop} (hP : Ordinary P) {servers : List Text}
    (hs : ∀ server ∈ servers, ∀ c ∈ server, isServerNameChar c = true) (budget : ℕ) :
    (∀ line ∈ tocLines config ns found budget servers, ∀ c ∈ line, P c) ↔
      (∀ server ∈ servers, ∀ d, describedAs config server = some d →
        ∀ c ∈ sanitizeListRowDescription d, P c) ∧
      ∀ name ∈ listedNames ns found budget servers, ∀ c ∈ sanitizeUpstreamIdentifier name, P c := by
  induction servers generalizing budget with
  | nil => simp [tocLines, tocRows, listedNames]
  | cons server rest ih =>
    obtain ⟨hserver, hrest⟩ := List.forall_mem_cons.mp hs
    have hmore := ih hrest
      (budget - byteLen ((findHint budget (hintNames ns found server)).getD []))
    rw [tocLines, tocHints_cons, tocRows, List.map_cons, List.zipWith_cons_cons, List.forall_mem_cons,
      List.forall_mem_append, forall_row hP hserver, forall_hint hP, ← tocRows, ← tocLines, hmore,
      List.forall_mem_cons, listedNames_cons, List.forall_mem_append]
    exact and_and_and_comm

end Hints

section Surfaces

/-- What upstreams have: a server's inventory, whenever it is read, is of these
tools. -/
def Having (has : Text → Tool → Prop) : (op : Op) → Ans op → Prop
  | .readTools entry, l => ∀ tool ∈ l.tools, has entry.server tool
  | _, _ => True

def RowVisible (row : Row) : Prop := ∀ fields, row.json = .obj fields →
  ∀ key ∈ ["tool".toList, "name".toList, "description".toList], ∀ text,
    get fields key = some (.str text) → Visible text

/-- The annotations in the schema that is shown of the tool are visible. -/
def SchemaVisible (found : Tool) : Prop := ∀ p text, annotates p = true →
  valueAt p (sanitizeSchemaMetadata (.obj found.inputSchema)) = some (.str text) → Visible text

/-- Nothing that is displayed has an invisible control, apart from the line feeds
between the lines of the table of contents. -/
structure SurfacesVisible (serde : Serde) (disk : Disk) (config : TomlConfig)
    (active : ActiveNamespace) (has : Text → Tool → Prop) : Prop where
  rows : ∀ request, Under (Having has) callsProtocol
    (fun reply _ => ∀ shown, reply = .rows shown → ∀ row ∈ shown, RowVisible row)
    (dispatchTool (.withRegistry config active) request) []
  schemas : ∀ request, Under (Having has) callsProtocol
    (fun reply _ => ∀ server found, reply = .schema server found → SchemaVisible found)
    (dispatchTool (.withRegistry config active) request) []
  toc : ∀ toc, configuredToc serde disk (.withRegistry config active) = some toc →
    ∃ lines : List Text, toc = tocHeader ++ (lines.map (· ++ ['\n'])).flatten ∧
      lines.length = active.allowedServers.length ∧ ∀ line ∈ lines, Visible line

/-- There is no directional mark in what is kept of the texts. -/
structure Unmarked (serde : Serde) (disk : Disk) (config : TomlConfig)
    (active : ActiveNamespace) (has : Text → Tool → Prop) : Prop where
  rows : ∀ s tool, has s tool → active.isToolAllowed s tool.name = true →
    ¬ HasMark (kept 200 tool.name) ∧ ¬ HasMark (kept 100 (tool.description.getD []))
  schemas : ∀ s tool, has s tool → active.isToolAllowed s tool.name = true → tool.name ≠ [] →
    ∀ p text, annotates p = true → valueAt p (.obj tool.inputSchema) = some (.str text) →
      ¬ HasMark text
  descriptions : ∀ server ∈ active.allowedServers, ∀ d, describedAs config server = some d →
    ¬ HasMark (kept 100 d)
  hints : ∀ name ∈ listedNames active (matchingCacheToolSummaries serde disk config active)
    (tocBudget config active.allowedServers) active.allowedServers, ¬ HasMark (kept 200 name)

variable {config : TomlConfig} {active : ActiveNamespace} {has : Text → Tool → Prop}

theorem rowVisible_iff (row : Row) : RowVisible row ↔
    ¬ HasMark (kept 200 row.tool.name) ∧ ¬ HasMark (kept 100 (row.tool.description.getD [])) := by
  rw [← shown_visible, ← shown_visible]
  constructor
  · intro h
    exact ⟨h _ rfl "name".toList (by decide) _ rfl, h _ rfl "description".toList (by decide) _ rfl⟩
  · rintro ⟨hname, hdesc⟩ fields hfields key hkey text htext
    cases hfields
    rw [List.mem_cons, List.mem_cons, List.mem_singleton] at hkey
    rcases hkey with rfl | rfl | rfl
    · cases htext
      exact hname
    · cases htext
      exact hname
    · cases htext
      exact hdesc

theorem schemaVisible_iff (found : Tool) : SchemaVisible found ↔
    ∀ p text, annotates p = true → valueAt p (.obj found.inputSchema) = some (.str text) →
      ¬ HasMark text := by
  constructor
  · intro h p text hp htext
    rw [← neutralized_visible]
    apply h p _ hp
    rw [string_sanitized htext, if_pos hp]
  · intro h p text hp htext
    rw [valueAt_sanitized, Option.map_eq_some_iff] at htext
    obtain ⟨value, hvalue, heq⟩ := htext
    cases value with
    | str raw =>
      rw [mapStrings, displayed, ← annotates, if_pos hp, Json.str.injEq] at heq
      rw [← heq]
      exact (neutralized_visible raw).mpr (h p raw hp hvalue)
    | null | bool _ | num _ | arr _ | obj _ => cases heq

theorem inventory_having (server : Text) (calls : List Forwarded) :
    Under (Having has) callsProtocol
      (fun out _ => ∀ tools, out = .ok tools → ∀ tool ∈ tools, has server tool)
      (inventory config server) calls := by
  refine under_bind (under_always (fun out calls => ?_) _ _)
  rcases out with e | entry
  · rintro tools ⟨⟩
  refine under_bind (under_always (fun out calls => ?_) _ _)
  rcases out with e | _
  · rintro tools ⟨⟩
  intro _ _ l hl _ _ tools htools
  cases htools
  rw [← entry.2]
  exact hl

def Shows (active : ActiveNamespace) (has : Text → Tool → Prop) (row : Row) : Prop :=
  has row.server row.tool ∧ active.isToolAllowed row.server row.tool.name = true

/-- What is listed, or shown the schema of, is an allowed tool of a server that
has it. -/
def Genuinely (active : ActiveNamespace) (has : Text → Tool → Prop) (reply : Reply) : Prop :=
  (∀ shown, reply = .rows shown → ∀ row ∈ shown, Shows active has row) ∧
    ∀ server found, reply = .schema server found → Shows active has ⟨server, found⟩ ∧ found.name ≠ []

theorem genuinely_failed (e : ToolError) : Genuinely active has (.failed e) := by
  constructor
  · rintro shown ⟨⟩
  · rintro server found ⟨⟩

theorem genuinely_result (result : CallToolResult) : Genuinely active has (.result result) := by
  constructor
  · rintro shown ⟨⟩
  · rintro server found ⟨⟩

theorem listRows_having (servers : List Text) (rows : List Row)
    (hrows : ∀ row ∈ rows, Shows active has row) (calls : List Forwarded) :
    Under (Having has) callsProtocol (fun reply _ => Genuinely active has reply)
      (listRows config active servers rows) calls := by
  induction servers generalizing rows calls with
  | nil =>
    constructor
    · rintro shown ⟨⟩
      exact hrows
    · rintro server found ⟨⟩
  | cons server rest ih =>
    rw [listRows]
    split_ifs
    · exact genuinely_failed _
    · refine under_bind (under_mono (fun out calls hout => ?_) (inventory_having server calls))
      rcases out with e | tools
      · exact genuinely_failed e
      · apply ih
        rw [List.forall_mem_append]
        refine ⟨hrows, fun row hrow => ?_⟩
        obtain ⟨tool, htool, rfl⟩ := List.mem_map.mp hrow
        obtain ⟨hin, hallowed⟩ := List.mem_filter.mp htool
        exact ⟨hout tools rfl tool hin, hallowed⟩

theorem list_having (servers : List Text) : Under (Having has) callsProtocol
    (fun reply _ => Genuinely active has reply) (listRows config active servers []) [] := by
  apply listRows_having
  rintro row ⟨⟩

theorem schema_having {name server tool : Text} (hparse : parseServerTool name = some (server, tool))
    (hallowed : active.isToolAllowed server tool = true) :
    Under (Having has) callsProtocol (fun reply _ => Genuinely active has reply)
      (inventory config server >>= fun out => .done (schemaIn server tool out)) [] := by
  obtain ⟨_, _, hne, _⟩ := parsed_parts hparse
  refine under_bind (under_mono (fun out calls hout => ?_) (inventory_having server []))
  rcases out with e | tools
  · exact genuinely_failed _
  change Genuinely active has ((tools.find? _).elim _ _)
  cases hfind : tools.find? (fun t => t.name = tool) with
  | none => exact genuinely_failed _
  | some found =>
    have hname : found.name = tool := by simpa using List.find?_some hfind
    have hhas := hout tools rfl found (List.mem_of_find?_eq_some hfind)
    refine ⟨by rintro shown ⟨⟩, ?_⟩
    rintro other shown ⟨⟩
    rw [Shows, hname]
    exact ⟨⟨hhas, hallowed⟩, hne⟩

theorem call_having (server tool : Text) (raw : JsonObject) :
    Under (Having has) callsProtocol (fun reply _ => Genuinely active has reply)
      (invokeRaced config server tool raw) [] := by
  apply under_all (Q := fun _ => True)
  apply all_interruptible trivial
  · exact ⟨trivial, fun _ => genuinely_failed _⟩
  · apply all_bind
    apply all_always
    rintro (_ | _)
    · exact genuinely_failed _
    · exact genuinely_result _

theorem dispatch_having (request : Request) :
    Under (Having has) callsProtocol (fun reply _ => Genuinely active has reply)
      (dispatchTool (.withRegistry config active) request) [] := by
  have hhandled := @dispatch_handled config active request
  generalize dispatchTool _ request = p at hhandled ⊢
  cases hhandled with
  | refused e => exact genuinely_failed e
  | listing servers _ => exact list_having servers
  | schema name server tool parsed _ allowed => exact schema_having parsed allowed
  | call server tool raw => exact call_having server tool raw

variable {serde : Serde} {disk : Disk} {s : Text} {tool : Tool}

theorem having_exists (h : has s tool) (op : Op) (hop : Expected op) :
    ∃ ans, Steady s [tool] op ans ∧ Having has op ans := by
  cases op with
  | readTools entry =>
    by_cases hs : entry.server = s
    · refine ⟨⟨[tool], 0⟩, fun _ => rfl, ?_⟩
      intro other hother
      rw [List.mem_singleton.mp hother, hs]
      exact h
    · exact ⟨⟨[], 0⟩, fun heq => absurd heq hs, fun other hother => nomatch hother⟩
  | _ =>
    obtain ⟨ans, hans⟩ := steady_exists s [tool] hop
    exact ⟨ans, hans, trivial⟩

theorem row_shown (hc : Covers config active)
    (hready : ∀ entry ∈ config.servers.entries, ServerReady entry.2) (h : has s tool)
    (hallowed : active.isToolAllowed s tool.name = true)
    (hrows : ∀ request, Under (Having has) callsProtocol
      (fun reply _ => ∀ shown, reply = .rows shown → ∀ row ∈ shown, RowVisible row)
      (dispatchTool (.withRegistry config active) request) []) : RowVisible ⟨s, tool⟩ := by
  have hreached := listing_reached (Q := fun rows => ∀ row ∈ rows, RowVisible row) hc hready
    (hc s (isToolAllowed_server hallowed)) (having_exists h) fun request _ =>
      under_mono (fun reply _ hreply shown hshown row hrow =>
        hreply shown hshown row (List.mem_of_mem_filter hrow)) (hrows request)
  apply hreached
  exact List.mem_map.mpr ⟨tool, List.mem_filter.mpr ⟨List.mem_singleton_self _, hallowed⟩, rfl⟩

theorem schema_shown (hc : Covers config active)
    (hready : ∀ entry ∈ config.servers.entries, ServerReady entry.2)
    (hname : validateServerName s = .ok ()) (h : has s tool)
    (hallowed : active.isToolAllowed s tool.name = true) (hne : tool.name ≠ [])
    (hschemas : ∀ request, Under (Having has) callsProtocol
      (fun reply _ => ∀ server found, reply = .schema server found → SchemaVisible found)
      (dispatchTool (.withRegistry config active) request) []) : SchemaVisible tool := by
  obtain ⟨hsne, hchars⟩ := validateServerName_ok.mp hname
  have hasks : AsksSchema s tool.name ⟨"get_tool_schema".toList,
      some [("name".toList, .str (s ++ "__".toList ++ tool.name))]⟩ := ⟨rfl, rfl⟩
  have hall := all_mono (having_exists h) (fun _ hr => hr)
    (@schema_expected config active hready _ hasks.1)
  have hreplied := @schema_replied config active s tool.name [tool] hready
    (hc s (isToolAllowed_server hallowed)) (parse_joined hsne hchars hne) _ hasks
  obtain ⟨reply, _, hreply, hvisible⟩ := under_exists hall
    (under_and (under_fewer (fun _ _ hg => hg.1) hreplied)
      (under_fewer (fun _ _ hg => hg.2) (hschemas _)))
  apply hvisible s tool
  rw [hreply, schemaReply, if_pos hallowed, List.find?_cons_of_pos (by simp)]
  rfl

/-- The lines of the table of contents as it is configured and cached. -/
def advertisedLines (serde : Serde) (disk : Disk) (config : TomlConfig) (active : ActiveNamespace) :
    List Text :=
  tocLines config active (matchingCacheToolSummaries serde disk config active)
    (tocBudget config active.allowedServers) active.allowedServers

theorem configuredToc_eq (serde : Serde) (disk : Disk) (config : TomlConfig) (active : ActiveNamespace) :
    configuredToc serde disk (.withRegistry config active) =
      if active.allowedServers.isEmpty then none else some (tocHeader ++
        ((advertisedLines serde disk config active).map (· ++ ['\n'])).flatten) := by
  rw [advertisedLines, tocLines, List.map_zipWith]
  rfl

theorem advertisedLines_length (serde : Serde) (disk : Disk) (config : TomlConfig)
    (active : ActiveNamespace) : (advertisedLines serde disk config active).length =
    active.allowedServers.length := by
  rw [advertisedLines, tocLines, List.length_zipWith, tocRows, List.length_map,
    spends_length (tocHints_spends _ _), Nat.min_self]

/-- The lines are visible if and only if nothing that is displayed in them has a
mark. -/
theorem advertised_visible
    (hnames : ∀ server ∈ active.allowedServers, ∀ c ∈ server, isServerNameChar c = true) :
    (∀ line ∈ advertisedLines serde disk config active, Visible line) ↔
    (∀ server ∈ active.allowedServers, ∀ d, describedAs config server = some d →
      ¬ HasMark (kept 100 d)) ∧
    ∀ name ∈ listedNames active (matchingCacheToolSummaries serde disk config active)
      (tocBudget config active.allowedServers) active.allowedServers, ¬ HasMark (kept 200 name) := by
  simp only [← shown_visible]
  exact forall_lines ordinary_visible hnames _

/-- However the table of contents is read as lines, what is invisible in it is
in them. -/
theorem advertised_read
    (hnames : ∀ server ∈ active.allowedServers, ∀ c ∈ server, isServerNameChar c = true)
    {lines : List Text} (hvisible : ∀ line ∈ lines, Visible line)
    (h : ((advertisedLines serde disk config active).map (· ++ ['\n'])).flatten =
      (lines.map (· ++ ['\n'])).flatten) :
    ∀ line ∈ advertisedLines serde disk config active, Visible line := by
  have hkept : ∀ line ∈ advertisedLines serde disk config active, ∀ c ∈ line,
      shouldNeutralizeUpstreamChar c = false :=
    (forall_lines ordinary_kept hnames _).mpr
      ⟨fun _ _ d _ => description_kept d, fun _ _ _ hc => sanitized_char hc⟩
  intro line hline c hc
  rw [isInvisible_eq, hkept line hline c hc, Bool.false_or, Bool.eq_false_iff]
  intro hm
  have hin : c ∈ ((advertisedLines serde disk config active).map (· ++ ['\n'])).flatten :=
    List.mem_flatten.mpr ⟨_, List.mem_map_of_mem hline, List.mem_append_left _ hc⟩
  rw [h, List.mem_flatten] at hin
  obtain ⟨_, hmem, hc⟩ := hin
  obtain ⟨other, hother, rfl⟩ := List.mem_map.mp hmem
  rcases List.mem_append.mp hc with hc | hc
  · have hshown := hvisible other hother c hc
    rw [isInvisible_eq, hm, Bool.or_true] at hshown
    exact Bool.noConfusion hshown
  · rw [List.mem_singleton.mp hc] at hm
    exact absurd hm (by decide)

/-- The text is visible, line by line, if and only if the lines it is made of are. -/
theorem toc_visible
    (hnames : ∀ server ∈ active.allowedServers, ∀ c ∈ server, isServerNameChar c = true) :
    (∀ toc, configuredToc serde disk (.withRegistry config active) = some toc →
      ∃ lines : List Text, toc = tocHeader ++ (lines.map (· ++ ['\n'])).flatten ∧
        lines.length = active.allowedServers.length ∧ ∀ line ∈ lines, Visible line) ↔
      ∀ line ∈ advertisedLines serde disk config active, Visible line := by
  constructor
  · intro h line hline
    by_cases hnone : active.allowedServers.isEmpty = true
    · have hlength := advertisedLines_length serde disk config active
      rw [List.isEmpty_iff.mp hnone, List.length_nil, List.length_eq_zero_iff] at hlength
      rw [hlength] at hline
      cases hline
    · obtain ⟨lines, htext, _, hvisible⟩ :=
        h _ ((configuredToc_eq serde disk config active).trans (if_neg hnone))
      exact advertised_read hnames hvisible (List.append_cancel_left htext) line hline
  · intro h toc htoc
    rw [configuredToc_eq] at htoc
    split_ifs at htoc
    cases htoc
    exact ⟨_, rfl, advertisedLines_length serde disk config active, h⟩

/-- Nothing invisible is displayed, whatever is asked and whatever the upstreams
have, if and only if what is kept of the texts has no directional mark. -/
theorem surfaces_exact (serde : Serde) (disk : Disk) (config : TomlConfig) (selected : Text)
    (hv : Valid config selected) (active : ActiveNamespace)
    (hnew : ActiveNamespace.new config selected = .ok active) (has : Text → Tool → Prop) :
    SurfacesVisible serde disk config active has ↔ Unmarked serde disk config active has := by
  have hc := covers_of_valid hv hnew
  have hnames : ∀ server ∈ active.allowedServers, ∀ c ∈ server, isServerNameChar c = true :=
    fun server hin => (hv.names server (hc server ((mem_allowedServers active server).mp hin))).2
  constructor
  · intro h
    obtain ⟨hdescriptions, hhints⟩ := (advertised_visible hnames).mp ((toc_visible hnames).mp h.toc)
    refine ⟨?_, ?_, hdescriptions, hhints⟩
    · intro s tool hhas hallowed
      exact (rowVisible_iff ⟨s, tool⟩).mp (row_shown hc hv.servers hhas hallowed h.rows)
    · intro s tool hhas hallowed hne
      have hname := validateServerName_ok.mpr (hv.names s (hc s (isToolAllowed_server hallowed)))
      exact (schemaVisible_iff tool).mp
        (schema_shown hc hv.servers hname hhas hallowed hne h.schemas)
  · intro h
    constructor
    · intro request
      apply under_mono _ (dispatch_having request)
      intro reply _ hreply shown hshown row hrow
      obtain ⟨hhas, hallowed⟩ := hreply.1 shown hshown row hrow
      exact (rowVisible_iff row).mpr (h.rows row.server row.tool hhas hallowed)
    · intro request
      apply under_mono _ (dispatch_having request)
      intro reply _ hreply server found hfound
      obtain ⟨⟨hhas, hallowed⟩, hne⟩ := hreply.2 server found hfound
      exact (schemaVisible_iff found).mpr (h.schemas server found hhas hallowed hne)
    · exact (toc_visible hnames).mpr ((advertised_visible hnames).mpr ⟨h.descriptions, h.hints⟩)

/-- A tool whose description begins with a mark that turns the direction of what
follows. -/
def turned : Tool := ⟨"a".toList, some "\u200fignored".toList, []⟩

theorem surfaces_marked : Valid gateConfig [] ∧ ActiveNamespace.new gateConfig [] = .ok gateActive ∧
    ¬ SurfacesVisible serdeJson gateDisk gateConfig gateActive fun _ tool => tool = turned := by
  refine ⟨gate_valid, rfl, fun h => ?_⟩
  have hcovers : Covers gateConfig gateActive := covers_of_valid gate_valid rfl
  have hrow : RowVisible ⟨"s".toList, turned⟩ :=
    row_shown hcovers gate_valid.servers rfl (by decide) h.rows
  have hmarked := ((rowVisible_iff _).mp hrow).2
  exact hmarked ⟨'\u200f', by decide, by decide⟩

theorem surfaces_exact_gate :
    SurfacesVisible serdeJson gateDisk gateConfig gateActive fun _ tool => tool ∈ gateInventory := by
  rw [surfaces_exact serdeJson gateDisk gateConfig [] gate_valid gateActive rfl]
  have hplain : ∀ text ∈ ["a".toList, "b".toList, []], ∀ cap, ¬ HasMark (kept cap text) := by
    rintro text htext cap ⟨c, hc, hm⟩
    have hin := (List.dropWhile_suffix _).subset (List.mem_of_mem_take hc)
    have hall : (["a".toList, "b".toList, []].all fun text => text.all fun c => !isMark c) = true := by
      decide
    have hunmarked := List.all_eq_true.mp (List.all_eq_true.mp hall text htext) c hin
    rw [hm] at hunmarked
    exact Bool.noConfusion hunmarked
  have hserver : ∀ server ∈ gateActive.allowedServers, server = "s".toList := fun server hin =>
    Finset.mem_singleton.mp (of_decide_eq_true ((mem_allowedServers gateActive server).mp hin))
  constructor
  · intro s tool hin _
    rw [List.mem_singleton.mp hin]
    exact ⟨hplain _ (by simp) 200, hplain _ (by simp) 100⟩
  · intro s tool hin _ _ p text _ htext
    rw [List.mem_singleton.mp hin] at htext
    cases p with
    | nil => cases htext
    | cons turn p => cases turn <;> cases htext
  · intro server hin d hd
    rw [hserver server hin] at hd
    cases hd
  · intro name hname
    obtain ⟨server, hin, hcached⟩ := listedNames_cached hname
    have hnames : cachedNames gateActive
        (matchingCacheToolSummaries serdeJson gateDisk gateConfig gateActive) "s".toList =
          ["a".toList, "b".toList] := by
      rw [matching_cached, gate_cached]
      decide +kernel
    rw [hserver server hin, hnames] at hcached
    exact hplain name (List.mem_append_left [[]] hcached) 200

end Surfaces

end FaninMcp.DisplaySurfaces
