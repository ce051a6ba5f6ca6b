import FaninMcp.CapabilityCache
import FaninMcp.MetaTools

/-!
# The advertised table of contents

A line for each visible server with what it is configured to be described as,
and behind it, as far as a budget of bytes allows, the names of tools that the
cache knows. The cache file is anyone's to write. All that can come of it is a
hint at the end of a server's line, of names that the namespace allows there.
-/

set_option autoImplicit false

namespace FaninMcp.TableOfContents
open Foundation.RustText Foundation.LossyUtf8 FaninMcp.ConfigModel FaninMcp.NamespaceAcl
  FaninMcp.CapabilityCache FaninMcp.MetaTools

section Rendering

def instructionsBudget : ℕ := 3000

def tocHeader : Text := "\n\nConfigured servers:\n".toList

/-- `String::len`. -/
def byteLen (text : Text) : ℕ := (utf8 text).length

def tocEntry (config : TomlConfig) (server : Text) : Text :=
  let description := ((config.servers.lookup server).bind ServerConfig.description).map
    sanitizeListRowDescription
  match description.filter fun text => !text.isEmpty with
  | some description =>
    "- ".toList ++ server ++ ": ".toList ++ description ++ ['\n']
  | none => "- ".toList ++ server ++ ['\n']

/-- The names of a hint: what the cache has of the server, asked for again. -/
def hintNames (ns : ActiveNamespace) (found : TextMap (List (Text × Text))) (server : Text) :
    List Text :=
  (((found.lookup server).getD []).filter fun tool => ns.isToolAllowed server tool.1).map
    fun tool => sanitizeUpstreamIdentifier tool.1

/-- `" +{omitted} more"`, unless nothing is omitted. -/
def omission (omitted : ℕ) : Text :=
  if 0 < omitted then " +".toList ++ Nat.toDigits 10 omitted ++ " more".toList else []

def hintText (names : List Text) (shown : ℕ) : Text :=
  " (tools: ".toList ++ List.intercalate ", ".toList (names.take shown) ++
    omission (names.length - shown) ++ [')']

def findHint (budget : ℕ) (names : List Text) : Option Text :=
  (List.range' 1 names.length).reverse.findSome? fun shown =>
    if byteLen (hintText names shown) ≤ budget then some (hintText names shown) else none

def tocHints (ns : ActiveNamespace) (found : TextMap (List (Text × Text))) :
    ℕ → List Text → List Text
  | _, [] => []
  | budget, server::rest =>
    match findHint budget (hintNames ns found server) with
    | some hint => hint :: tocHints ns found (budget - byteLen hint) rest
    | none => [] :: tocHints ns found budget rest

def tocBudget (config : TomlConfig) (servers : List Text) : ℕ :=
  instructionsBudget - (byteLen tocHeader + ((servers.map (tocEntry config)).map byteLen).sum)

def tocLine (row hint : Text) : Text := row ++ hint ++ ['\n']

def tocRows (config : TomlConfig) (servers : List Text) : List Text :=
  servers.map fun server => trimEnd (tocEntry config server)

def renderToc (rows hints : List Text) : Text :=
  tocHeader ++ (List.zipWith tocLine rows hints).flatten

def configuredToc (serde : Serde) (disk : Disk) (agg : Aggregator) : Option Text :=
  match agg.registry, agg.active with
  | none, _ | _, none => none
  | some config, some ns =>
    let found := matchingCacheToolSummaries serde disk config ns
    let servers := ns.allowedServers
    if servers.isEmpty then none
    else some (renderToc (tocRows config servers)
      (tocHints ns found (tocBudget config servers) servers))

end Rendering

section Hints

def isLineBreak (c : Char) : Bool :=
  let u := c.toNat
  (0x000A ≤ u && u ≤ 0x000D) || u == 0x0085 || u == 0x2028 || u == 0x2029

def Unbroken (text : Text) : Prop := ∀ c ∈ text, isLineBreak c = false

instance (text : Text) : Decidable (Unbroken text) :=
  List.decidableBAll (fun c => isLineBreak c = false) text

theorem isLineBreak_neutralized {c : Char} (h : isLineBreak c = true) :
    shouldNeutralizeUpstreamChar c = true := by
  simp only [isLineBreak, shouldNeutralizeUpstreamChar, Bool.or_eq_true, Bool.and_eq_true,
    decide_eq_true_eq, beq_iff_eq] at h ⊢
  omega

theorem sanitized_char {s : Text} {c : Char} (h : c ∈ sanitizeUpstreamIdentifier s) :
    shouldNeutralizeUpstreamChar c = false := by
  obtain ⟨d, _, rfl⟩ := List.mem_map.mp (mem_trim (List.mem_of_mem_take h))
  split_ifs with hd
  · decide
  · simpa using hd

theorem sanitized_unbroken (s : Text) : Unbroken (sanitizeUpstreamIdentifier s) := by
  intro c hc
  have hkept := sanitized_char hc
  apply Bool.eq_false_iff.mpr
  intro hbreak
  rw [isLineBreak_neutralized hbreak] at hkept
  exact Bool.noConfusion hkept

def Printable (c : Char) : Prop := 0x20 ≤ c.toNat ∧ c.toNat < 0x7F

instance (c : Char) : Decidable (Printable c) :=
  inferInstanceAs (Decidable (0x20 ≤ c.toNat ∧ c.toNat < 0x7F))

theorem forall_printable {P : Char → Prop} (hP : ∀ c, Printable c → P c) {text : Text}
    (h : (text.all fun c => decide (Printable c)) = true) : ∀ c ∈ text, P c :=
  fun c hc => hP c (of_decide_eq_true (List.all_eq_true.mp h c hc))

theorem printable_unbroken (c : Char) (h : Printable c) : isLineBreak c = false := by
  obtain ⟨hlo, hhi⟩ := h
  simp only [isLineBreak, Bool.or_eq_false_iff, Bool.and_eq_false_iff, decide_eq_false_iff_not,
    beq_eq_false_iff_ne]
  omega

theorem printable_omission (omitted : ℕ) {c : Char} (hc : c ∈ omission omitted) : Printable c := by
  rw [omission] at hc
  split_ifs at hc
  · rw [List.mem_append, List.mem_append] at hc
    rcases hc with (hplus | hdigit) | hmore
    · exact forall_printable (fun _ h => h) (by decide) c hplus
    · have hdigit := Nat.isDigit_of_mem_toDigits (by decide) (by decide) hdigit
      simp only [Char.isDigit, Bool.and_eq_true, decide_eq_true_eq] at hdigit
      have h48 : 48 ≤ c.toNat := hdigit.1
      have h57 : c.toNat ≤ 57 := hdigit.2
      exact ⟨by omega, by omega⟩
    · exact forall_printable (fun _ h => h) (by decide) c hmore
  · cases hc

theorem forall_intercalate {P : Char → Prop} {sep : Text} (hsep : ∀ c ∈ sep, P c) (names : List Text) :
    (∀ c ∈ List.intercalate sep names, P c) ↔ ∀ name ∈ names, ∀ c ∈ name, P c := by
  induction names with
  | nil => simp
  | cons name rest ih =>
    cases rest with
    | nil => simp
    | cons next rest =>
      have hjoined : List.intercalate sep (name::next::rest) =
          name ++ sep ++ List.intercalate sep (next::rest) := by
        simp [List.intercalate]
      rw [hjoined, List.forall_mem_append, List.forall_mem_append, ih,
        List.forall_mem_cons (a := name)]
      exact ⟨fun h => ⟨h.1.1, h.2⟩, fun h => ⟨⟨h.1, hsep⟩, h.2⟩⟩

theorem forall_hintText {P : Char → Prop} (hP : ∀ c, Printable c → P c) (names : List Text)
    (shown : ℕ) :
    (∀ c ∈ hintText names shown, P c) ↔ ∀ name ∈ names.take shown, ∀ c ∈ name, P c := by
  have hsep : ∀ c ∈ ", ".toList, P c := forall_printable hP (by decide)
  change (∀ c ∈ " (tools: ".toList ++ List.intercalate ", ".toList (names.take shown) ++
    omission (names.length - shown) ++ [')'], P c) ↔ _
  rw [List.forall_mem_append, List.forall_mem_append, List.forall_mem_append,
    forall_intercalate hsep]
  constructor
  · exact fun h => h.1.1.2
  · intro h
    exact ⟨⟨⟨forall_printable hP (by decide), h⟩, fun c hc => hP c (printable_omission _ hc)⟩,
      forall_printable hP (by decide)⟩

theorem hintText_unbroken {names : List Text} (h : ∀ name ∈ names, Unbroken name) (shown : ℕ) :
    Unbroken (hintText names shown) :=
  (forall_hintText printable_unbroken names shown).mpr fun name hname =>
    h name (List.mem_of_mem_take hname)

/-- A hint for a server: at least one of a list of tools that the server may
show, sanitized, and how many more there are. -/
structure HintFor (ns : ActiveNamespace) (server hint : Text) : Prop where
  listed : ∃ (tools : List Text) (shown : ℕ), (∀ tool ∈ tools, ns.isToolAllowed server tool = true) ∧
    1 ≤ shown ∧ shown ≤ tools.length ∧ hint = hintText (tools.map sanitizeUpstreamIdentifier) shown
  unbroken : Unbroken hint

variable {ns : ActiveNamespace} {found : TextMap (List (Text × Text))} {server : Text}

theorem findHint_some {budget : ℕ} {names : List Text} {hint : Text}
    (h : findHint budget names = some hint) : ∃ shown, 1 ≤ shown ∧ shown ≤ names.length ∧
      hint = hintText names shown ∧ byteLen hint ≤ budget := by
  obtain ⟨shown, hmem, hsome⟩ := List.exists_of_findSome?_eq_some h
  rw [List.mem_reverse, List.mem_range'_1] at hmem
  split_ifs at hsome with hfits
  obtain rfl := Option.some.inj hsome
  exact ⟨shown, hmem.1, by omega, rfl, hfits⟩

theorem hintNames_eq (ns : ActiveNamespace) (found : TextMap (List (Text × Text))) (server : Text) :
    ∃ tools : List Text, (∀ tool ∈ tools, ns.isToolAllowed server tool = true) ∧
      hintNames ns found server = tools.map sanitizeUpstreamIdentifier := by
  refine ⟨(((found.lookup server).getD []).filter fun tool =>
    ns.isToolAllowed server tool.1).map Prod.fst, ?_, ?_⟩
  · intro tool htool
    obtain ⟨pair, hpair, rfl⟩ := List.mem_map.mp htool
    exact (List.mem_filter.mp hpair).2
  · simp [hintNames, Function.comp_def]

theorem findHint_for {budget : ℕ} {hint : Text}
    (h : findHint budget (hintNames ns found server) = some hint) : HintFor ns server hint := by
  obtain ⟨tools, hallowed, hnames⟩ := hintNames_eq ns found server
  rw [hnames] at h
  obtain ⟨shown, hpos, hle, rfl, _⟩ := findHint_some h
  constructor
  · exact ⟨tools, shown, hallowed, hpos, by simpa using hle, rfl⟩
  · apply hintText_unbroken
    intro name hname
    obtain ⟨tool, _, rfl⟩ := List.mem_map.mp hname
    exact sanitized_unbroken tool

theorem tocHints_for (ns : ActiveNamespace) (found : TextMap (List (Text × Text))) (budget : ℕ)
    (servers : List Text) : List.Forall₂ (fun server hint => hint = [] ∨ HintFor ns server hint) servers
      (tocHints ns found budget servers) := by
  induction servers generalizing budget with
  | nil => exact .nil
  | cons server rest ih =>
    rw [tocHints]
    cases h : findHint budget (hintNames ns found server) with
    | none => exact .cons (Or.inl rfl) (ih budget)
    | some hint => exact .cons (Or.inr (findHint_for h)) (ih _)

theorem tocHints_empty (budget : ℕ) (servers : List Text) :
    tocHints ns ∅ budget servers = servers.map fun _ => [] := by
  induction servers generalizing budget with
  | nil => rfl
  | cons server rest ih =>
    have hnone : findHint budget (hintNames ns ∅ server) = none := rfl
    rw [tocHints, hnone]
    exact congrArg (List.cons []) (ih budget)

end Hints

section Lines

def lines (text : Text) : List Text := text.splitOnP isLineBreak

/-- The same lines in the same order, some with an allowed text at their end. -/
def Extended (allowed : Text → Prop) (plain shown : Text) : Prop :=
  List.Forall₂ (fun l m => m = l ∨ ∃ hint, allowed hint ∧ m = l ++ hint) (lines plain) (lines shown)

variable {allowed : Text → Prop}

theorem extended_refl (text : Text) : Extended allowed text text := by
  rw [Extended, List.forall₂_same]
  exact fun _ _ => Or.inl rfl

theorem extended_append {c : Char} (hc : isLineBreak c = true) {a a' b b' : Text}
    (ha : Extended allowed a a') (hb : Extended allowed b b') :
    Extended allowed (a ++ c::b) (a' ++ c::b') := by
  rw [Extended, lines, lines, List.splitOnP_append_cons _ _ hc, List.splitOnP_append_cons _ _ hc]
  exact List.rel_append ha hb

theorem extended_hint {hint : Text} (hu : Unbroken hint) (ha : allowed hint) (row : Text) :
    Extended allowed row (row ++ hint) := by
  induction row with
  | nil =>
    rw [Extended, lines, lines, List.splitOnP_nil, List.nil_append,
      List.splitOnP_eq_singleton hu]
    exact .cons (Or.inr ⟨hint, ha, rfl⟩) .nil
  | cons c row ih =>
    rw [Extended, lines, lines, List.cons_append, List.splitOnP_cons_eq_if_modifyHead,
      List.splitOnP_cons_eq_if_modifyHead]
    split_ifs with hc
    · exact .cons (Or.inl rfl) ih
    · rw [Extended, lines, lines] at ih
      cases hplain : row.splitOnP isLineBreak with
      | nil => exact absurd hplain (List.splitOnP_ne_nil _ _)
      | cons l ls =>
        rw [hplain] at ih
        obtain ⟨m, ms, hm, hms, heq⟩ := List.forall₂_cons_left_iff.mp ih
        rw [heq]
        refine .cons (hm.imp (congrArg (List.cons c)) ?_) hms
        rintro ⟨hint, ha, rfl⟩
        exact ⟨hint, ha, rfl⟩

theorem mem_forall₂ {α β : Type} {R : α → β → Prop} {as : List α} {bs : List β}
    (h : List.Forall₂ R as bs) {b : β} (hb : b ∈ bs) : ∃ a ∈ as, R a b := by
  induction h with
  | nil => cases hb
  | @cons a b' as bs hab _ ih =>
    rcases List.mem_cons.mp hb with rfl | hb
    · exact ⟨a, by simp, hab⟩
    · obtain ⟨a', ha', hr⟩ := ih hb
      exact ⟨a', by simp [ha'], hr⟩

theorem extended_toc {rows hints : List Text} (hlen : rows.length = hints.length)
    (h : ∀ hint ∈ hints, hint = [] ∨ Unbroken hint ∧ allowed hint) :
    Extended allowed (renderToc rows (rows.map fun _ => [])) (renderToc rows hints) := by
  have hrows : Extended allowed (List.zipWith tocLine rows (rows.map fun _ => [])).flatten
      (List.zipWith tocLine rows hints).flatten := by
    induction rows generalizing hints with
    | nil => exact extended_refl _
    | cons row rows ih =>
      cases hints with
      | nil => cases hlen
      | cons hint hints =>
        obtain ⟨hhint, hrest⟩ := List.forall_mem_cons.mp h
        have hline : Extended allowed row (row ++ hint) := by
          rcases hhint with rfl | ⟨hu, ha⟩
          · rw [List.append_nil]
            exact extended_refl row
          · exact extended_hint hu ha row
        have hmore := extended_append (show isLineBreak '\n' = true by decide) hline
          (ih (Nat.succ.inj hlen) hrest)
        simpa [tocLine] using hmore
  have hheader : tocHeader = "\n\nConfigured servers:".toList ++ ['\n'] := by decide
  rw [renderToc, renderToc, hheader, List.append_assoc, List.append_assoc]
  exact extended_append (show isLineBreak '\n' = true by decide) (extended_refl _) hrows

end Lines

section Powerless

/-- `shown` is `plain` with hints at the end of the lines of visible servers. -/
structure OnlyHints (config : TomlConfig) (ns : ActiveNamespace) (plain shown : Text) : Prop where
  rows : ∃ hints, List.Forall₂ (fun server hint => hint = [] ∨ HintFor ns server hint)
      ns.allowedServers hints ∧
    plain = renderToc (tocRows config ns.allowedServers)
      ((tocRows config ns.allowedServers).map fun _ => []) ∧
    shown = renderToc (tocRows config ns.allowedServers) hints
  lines : Extended (fun hint => ∃ server, ns.isServerAllowed server = true ∧
    HintFor ns server hint) plain shown

def prune (ns : ActiveNamespace) (cache : Cache) : Cache :=
  { cache with
    servers := (cache.servers.filter fun server => ns.isServerAllowed server.name).map fun server =>
      { server with tools := server.tools.filter fun tool => ns.isToolAllowed server.name tool.name } }

variable (serde : Serde) (disk : Disk) (config : TomlConfig) (ns : ActiveNamespace)

def tocOver (files : Files) : Option Text :=
  configuredToc serde { disk with files := files } (.withRegistry config ns)

def listed (servers : List CachedServer) : TextMap (List (Text × Text)) :=
  servers.foldl (fun found server =>
    found.insert server.name (server.tools.map fun tool => (tool.name, tool.description))) ∅

theorem summaries_prune (cache : Cache) :
    summaries ns cache.servers = listed (prune ns cache).servers := by
  rw [listed, prune, List.foldl_map]
  rfl

theorem summaries_readCache (file : Option Bytes) :
    summaries ns (readCache serde file config ns) =
      match (file.bind serde.fromSlice).map (prune ns) with
      | none => ∅
      | some cache =>
        if cache.formatVersion ≠ 1 ∨ cache.namespaceName ≠ ns.name ∨
          cache.configFingerprint ≠ configFingerprint config ns then ∅ else listed cache.servers := by
  rw [readCache]
  cases file.bind serde.fromSlice with
  | none => rfl
  | some cache =>
    dsimp only [Option.map_some]
    rw [apply_ite (summaries ns), summaries_prune]
    rfl

theorem matching_prune {files files' : Files}
    (h : ∀ path, ((files path).bind serde.fromSlice).map (prune ns) =
      ((files' path).bind serde.fromSlice).map (prune ns)) :
    matchingCacheToolSummaries serde { disk with files := files } config ns =
      matchingCacheToolSummaries serde { disk with files := files' } config ns := by
  simp only [matchingCacheToolSummaries]
  cases capabilityCachePath disk.vars ns.name with
  | none => rfl
  | some path =>
    dsimp only
    rw [summaries_readCache, summaries_readCache, h path]

theorem matching_absent :
    matchingCacheToolSummaries serde { disk with files := fun _ => none } config ns = ∅ := by
  simp only [matchingCacheToolSummaries]
  cases capabilityCachePath disk.vars ns.name with
  | none => rfl
  | some path => rfl

/-- The table of contents under any cache file is the one without a file, but
for hints behind the rows; and of two files that differ in what the namespace
denies, both give the same. -/
theorem cache_file_powerless :
    (∀ files, Option.Rel (OnlyHints config ns) (tocOver serde disk config ns fun _ => none)
      (tocOver serde disk config ns files)) ∧
    ∀ files files', (∀ path, ((files path).bind serde.fromSlice).map (prune ns) =
      ((files' path).bind serde.fromSlice).map (prune ns)) →
      tocOver serde disk config ns files = tocOver serde disk config ns files' := by
  constructor
  · intro files
    by_cases hempty : ns.allowedServers.isEmpty = true
    · have hnone : ∀ files, tocOver serde disk config ns files = none := fun files => if_pos hempty
      rw [hnone, hnone]
      exact .none
    · have hsome : ∀ files, tocOver serde disk config ns files =
          some (renderToc (tocRows config ns.allowedServers)
            (tocHints ns (matchingCacheToolSummaries serde { disk with files := files } config ns)
              (tocBudget config ns.allowedServers) ns.allowedServers)) := fun files => if_neg hempty
      have hhints := tocHints_for ns
        (matchingCacheToolSummaries serde { disk with files := files } config ns)
        (tocBudget config ns.allowedServers) ns.allowedServers
      have hplain : (ns.allowedServers.map fun _ => []) =
          (tocRows config ns.allowedServers).map fun _ => ([] : Text) := by
        simp [tocRows, Function.comp_def]
      rw [hsome, hsome, matching_absent, tocHints_empty, hplain]
      apply Option.Rel.some
      constructor
      · exact ⟨_, hhints, rfl, rfl⟩
      · apply extended_toc
        · rw [tocRows, List.length_map, hhints.length_eq]
        · intro hint hmem
          obtain ⟨server, hserver, hone⟩ := mem_forall₂ hhints hmem
          refine hone.imp id fun hfor => ⟨hfor.unbroken, server, ?_, hfor⟩
          exact (mem_allowedServers ns server).mp hserver
  · intro files files' h
    simp only [tocOver, configuredToc, Aggregator.withRegistry, matching_prune serde disk config ns h]

end Powerless

end FaninMcp.TableOfContents
