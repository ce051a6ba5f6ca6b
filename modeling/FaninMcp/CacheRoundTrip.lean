import FaninMcp.CacheFile
import FaninMcp.CheckRun

/-!
# What a cache is good for

The fingerprint of a cache shows the visible servers, the tool filters and what
the servers are configured with, and two fingerprints are the same only if all
of it is. A cache read back under the same configuration therefore holds what
was inventoried, and a cache read back under any other is not used.
-/

set_option autoImplicit false

namespace FaninMcp.CacheRoundTrip
open Foundation.RustText Foundation.JsonText FaninMcp.ConfigModel FaninMcp.ErrorModel
  FaninMcp.NamespaceAcl FaninMcp.CapabilityCache FaninMcp.CacheFile FaninMcp.RegistryModel
  FaninMcp.CheckRun

section Injectivity

theorem optionText_injective {a b : Option Text} (h : optionText a = optionText b) : a = b := by
  cases a with
  | none =>
    cases b with
    | none => rfl
    | some b => cases h
  | some a =>
    cases b with
    | none => cases h
    | some b => exact congrArg some (Json.str.inj h)

theorem textArray_injective {a b : List Text} (h : textArray a = textArray b) : a = b :=
  List.map_injective_iff.mpr (fun _ _ => Json.str.inj) (Json.arr.inj h)

theorem sort_injective {s t : Finset Text} (h : s.sort (· ≤ ·) = t.sort (· ≤ ·)) : s = t := by
  rw [← Finset.sort_toFinset s (· ≤ ·), h, Finset.sort_toFinset]

theorem json_injective {a b : FingerprintServer} (h : a.json = b.json) : a = b := by
  simp only [FingerprintServer.json, Json.obj.injEq, List.cons.injEq, Prod.mk.injEq, true_and,
    and_true, Json.str.injEq, Json.num.injEq] at h
  obtain ⟨hargs, hcommand, hcwd, hdescription, hendpoint, hname, htimeout, htransport⟩ := h
  cases a
  cases b
  simp only [FingerprintServer.mk.injEq]
  exact ⟨hname, htransport, optionText_injective hcommand, textArray_injective hargs,
    optionText_injective hendpoint, optionText_injective hcwd, intNumber_injective htimeout,
    optionText_injective hdescription⟩

theorem tag_mem {α β : Type} {tag : β → α} {f : α → Option β}
    (hf : ∀ a b, f a = some b → tag b = a) {l : List α} {b : β} (hb : b ∈ l.filterMap f) :
    tag b ∈ l := by
  obtain ⟨a, ha, hfa⟩ := List.mem_filterMap.mp hb
  rwa [hf a b hfa]

theorem filterMap_tagged {α β : Type} {tag : β → α} {f g : α → Option β}
    (hf : ∀ a b, f a = some b → tag b = a) (hg : ∀ a b, g a = some b → tag b = a) {l : List α}
    (hl : l.Nodup) (h : l.filterMap f = l.filterMap g) : ∀ a ∈ l, f a = g a := by
  induction l with
  | nil => simp
  | cons a rest ih =>
    obtain ⟨hfresh, hrest⟩ := List.nodup_cons.mp hl
    rw [List.filterMap_cons, List.filterMap_cons] at h
    rw [List.forall_mem_cons]
    cases hfa : f a with
    | none =>
      cases hga : g a with
      | none =>
        simp only [hfa, hga] at h
        exact ⟨rfl, ih hrest h⟩
      | some b =>
        simp only [hfa, hga] at h
        have hb : b ∈ rest.filterMap f := by simp [h]
        exact absurd (hg a b hga ▸ tag_mem hf hb) hfresh
    | some b =>
      cases hga : g a with
      | none =>
        simp only [hfa, hga] at h
        have hb : b ∈ rest.filterMap g := by simp [← h]
        exact absurd (hf a b hfa ▸ tag_mem hg hb) hfresh
      | some b' =>
        simp only [hfa, hga] at h
        obtain ⟨rfl, htail⟩ := List.cons.inj h
        exact ⟨rfl, ih hrest htail⟩

end Injectivity

section Fingerprints

structure SameServer (a b : ServerConfig) : Prop where
  transport : a.transportKind = b.transportKind
  command : a.command = b.command
  args : a.args = b.args
  endpoint : a.endpoint = b.endpoint
  cwd : a.cwd = b.cwd
  timeoutSecs : a.timeoutSecs = b.timeoutSecs
  description : a.description = b.description

variable {c₁ c₂ : TomlConfig} {n₁ n₂ : ActiveNamespace}

structure Agree (c₁ : TomlConfig) (n₁ : ActiveNamespace) (c₂ : TomlConfig) (n₂ : ActiveNamespace) :
    Prop where
  visible : n₁.servers = n₂.servers
  filters : ∀ s, n₁.tools.lookup s = n₂.tools.lookup s
  servers : ∀ s, n₁.isServerAllowed s = true →
    Option.Rel SameServer (c₁.servers.lookup s) (c₂.servers.lookup s)

theorem fromConfig_eq {name : Text} {a b : ServerConfig} :
    FingerprintServer.fromConfig name a = FingerprintServer.fromConfig name b ↔ SameServer a b := by
  simp only [FingerprintServer.fromConfig, FingerprintServer.mk.injEq, true_and]
  constructor
  · rintro ⟨htransport, hcommand, hargs, hendpoint, hcwd, htimeout, hdescription⟩
    exact ⟨htransport, hcommand, hargs, hendpoint, hcwd, htimeout, hdescription⟩
  · rintro ⟨htransport, hcommand, hargs, hendpoint, hcwd, htimeout, hdescription⟩
    exact ⟨htransport, hcommand, hargs, hendpoint, hcwd, htimeout, hdescription⟩

theorem map_fromConfig_eq (name : Text) {a b : Option ServerConfig} :
    a.map (FingerprintServer.fromConfig name) = b.map (FingerprintServer.fromConfig name) ↔
      Option.Rel SameServer a b := by
  cases a <;> cases b <;> simp [fromConfig_eq]

theorem filter_keys (ns : ActiveNamespace) :
    (effectiveToolFilters ns).map Prod.fst = ns.tools.keys.toFinset.sort (· ≤ ·) := by
  simp [effectiveToolFilters, Function.comp_def]

theorem effectiveToolFilters_eq :
    effectiveToolFilters n₁ = effectiveToolFilters n₂ ↔
      ∀ s, n₁.tools.lookup s = n₂.tools.lookup s := by
  have hkey : ∀ (ns : ActiveNamespace) (s : Text),
      s ∈ ns.tools.keys.toFinset.sort (· ≤ ·) ↔ (ns.tools.lookup s).isSome = true := by
    intro ns s
    rw [Finset.mem_sort, List.mem_toFinset, ← AList.mem_keys, AList.lookup_isSome]
  constructor
  · intro h s
    have hkeys := congrArg (List.map Prod.fst) h
    rw [filter_keys, filter_keys] at hkeys
    have hsome : (n₁.tools.lookup s).isSome = true ↔ (n₂.tools.lookup s).isSome = true := by
      rw [← hkey n₁, ← hkey n₂, hkeys]
    rw [effectiveToolFilters, effectiveToolFilters, ← hkeys, List.map_inj_left] at h
    cases hs₁ : n₁.tools.lookup s with
    | none =>
      cases hs₂ : n₂.tools.lookup s with
      | none => rfl
      | some t₂ => simp [hs₁, hs₂] at hsome
    | some t₁ =>
      cases hs₂ : n₂.tools.lookup s with
      | none => simp [hs₁, hs₂] at hsome
      | some t₂ =>
        have hsorted := h s ((hkey n₁ s).mpr (by simp [hs₁]))
        simp only [hs₁, hs₂, Option.getD_some, Prod.mk.injEq, true_and] at hsorted
        exact congrArg some (sort_injective hsorted)
  · intro h
    have hkeys : n₁.tools.keys.toFinset = n₂.tools.keys.toFinset := by
      ext s
      rw [← Finset.mem_sort (· ≤ ·), hkey, h s, ← hkey, Finset.mem_sort]
    simp only [effectiveToolFilters, hkeys, h]

theorem fingerprintServers_eq (hn : n₁.allowedServers = n₂.allowedServers) :
    fingerprintServers c₁ n₁ = fingerprintServers c₂ n₂ ↔ ∀ s, n₁.isServerAllowed s = true →
      Option.Rel SameServer (c₁.servers.lookup s) (c₂.servers.lookup s) := by
  have htag : ∀ (c : TomlConfig) (s : Text) (b : FingerprintServer),
      (c.servers.lookup s).map (FingerprintServer.fromConfig s) = some b → b.name = s := by
    intro c s b hb
    obtain ⟨server, _, rfl⟩ := Option.map_eq_some_iff.mp hb
    rfl
  have hnodup : n₁.allowedServers.Nodup := Finset.sort_nodup _ _
  rw [fingerprintServers, fingerprintServers, ← hn]
  constructor
  · intro h s hs
    rw [← map_fromConfig_eq]
    exact filterMap_tagged (htag c₁) (htag c₂) hnodup h s ((mem_allowedServers n₁ s).mpr hs)
  · intro h
    apply List.filterMap_congr
    intro s hs
    rw [map_fromConfig_eq]
    exact h s ((mem_allowedServers n₁ s).mp hs)

theorem textPairs_injective {a b : List (Text × List Text)}
    (h : (a.map fun filter => (filter.1, textArray filter.2)) =
      b.map fun filter => (filter.1, textArray filter.2)) : a = b := by
  refine List.map_injective_iff.mpr (fun x y hxy => ?_) h
  obtain ⟨hfst, hsnd⟩ := Prod.mk.inj hxy
  exact Prod.ext hfst (textArray_injective hsnd)

theorem configFingerprint_eq :
    configFingerprint c₁ n₁ = configFingerprint c₂ n₂ ↔ n₁.name = n₂.name ∧ Agree c₁ n₁ c₂ n₂ := by
  simp only [configFingerprint, Json.obj.injEq, List.cons.injEq, Prod.mk.injEq, true_and, and_true,
    Json.str.injEq, Json.arr.injEq]
  constructor
  · rintro ⟨hallowed, hname, hservers, htools⟩
    have hn := textArray_injective hallowed
    have hs := List.map_injective_iff.mpr (fun _ _ => json_injective) hservers
    exact ⟨hname, sort_injective hn, effectiveToolFilters_eq.mp (textPairs_injective htools),
      (fingerprintServers_eq hn).mp hs⟩
  · rintro ⟨hname, h⟩
    have hn : n₁.allowedServers = n₂.allowedServers := by
      rw [ActiveNamespace.allowedServers, h.visible, ActiveNamespace.allowedServers]
    rw [hn, (fingerprintServers_eq hn).mpr h.servers, effectiveToolFilters_eq.mpr h.filters]
    exact ⟨rfl, hname, rfl, rfl⟩

end Fingerprints

section Lookups
variable {α V : Type} {key : α → Text} {value : α → V} {a : Text}

theorem lookup_inserted_none {l : List α} {m : TextMap V} (h : ∀ x ∈ l, key x ≠ a) :
    (l.foldl (fun m x => m.insert (key x) (value x)) m).lookup a = m.lookup a := by
  induction l generalizing m with
  | nil => rfl
  | cons x rest ih =>
    obtain ⟨hx, hrest⟩ := List.forall_mem_cons.mp h
    rw [List.foldl_cons, ih hrest, AList.lookup_insert_ne (Ne.symm hx)]

theorem lookup_inserted {l : List α} {m : TextMap V} (hl : (l.map key).Nodup) {x : α} (hx : x ∈ l) :
    (l.foldl (fun m x => m.insert (key x) (value x)) m).lookup (key x) = some (value x) := by
  induction l generalizing m with
  | nil => cases hx
  | cons y rest ih =>
    rw [List.map_cons, List.nodup_cons] at hl
    rw [List.foldl_cons]
    rcases List.mem_cons.mp hx with rfl | hx
    · have hother : ∀ y ∈ rest, key y ≠ key x := fun y hy heq => hl.1 (heq ▸ List.mem_map_of_mem hy)
      rw [lookup_inserted_none hother, AList.lookup_insert]
    · exact ih hl.2 hx

end Lookups

section ReadingBack
variable {serde : Serde} {disk : Disk} {config : TomlConfig} {ns : ActiveNamespace}

/-- There is a cache directory, and the file system takes what is written to it. -/
structure Takes (disk : Disk) : Prop where
  root : ((disk.vars "FANIN_MCP_CACHE_DIR".toList).or (platformCacheDir disk.vars)).isSome = true
  createDirAll : disk.createDirAll = .ok ()
  write : disk.write = .ok ()

def advertised (ns : ActiveNamespace) (server : Text) (tools : List Tool) : List (Text × Text) :=
  (tools.filter fun tool => ns.isToolAllowed server tool.name).map fun tool =>
    (tool.name, tool.description.getD [])

/-- A lookup gives what a server was asked for, and nothing for other servers. -/
structure Recalls (ns : ActiveNamespace) (asked : List Asked)
    (found : TextMap (List (Text × Text))) : Prop where
  visible : ∀ server outcome, (server, outcome) ∈ asked →
    ∃ tools, outcome = .ok tools ∧ found.lookup server = some (advertised ns server tools)
  hidden : ∀ server, ns.isServerAllowed server = false → found.lookup server = none

theorem allowedTools_cached (server description : Text) (tools : List Tool) :
    allowedTools ns ⟨server, description, tools.map cachedTool⟩ = advertised ns server tools := by
  simp [allowedTools, advertised, cachedTool, List.filter_map, Function.comp_def]

theorem matching_stored {cache : Cache} (hdisk : Takes disk)
    (hstem : isValidCacheNamespaceStem cache.namespaceName = true)
    (hserde : serde.fromSlice (serde.toVecPretty cache) = some cache)
    (hname : ns.name = cache.namespaceName) (hversion : cache.formatVersion = 1) :
    matchingCacheToolSummaries serde { disk with files := (storeCache serde disk cache).2 } config ns =
      if cache.configFingerprint = configFingerprint config ns then summaries ns cache.servers
      else ∅ := by
  obtain ⟨root, hroot⟩ := Option.isSome_iff_exists.mp hdisk.root
  simp only [matchingCacheToolSummaries, storeCache, capabilityCachePath, hname, hstem, hroot,
    if_true, Option.map_some, hdisk.createDirAll, hdisk.write, Function.update_self, readCache,
    Option.bind_some, hserde, hversion]
  by_cases hfp : cache.configFingerprint = configFingerprint config ns
  · simp [hfp]
  · simp [hfp, summaries]

theorem errorsOf_nil {one : Asked} (h : errorsOf ns one = []) : ∃ tools, one.2 = .ok tools := by
  obtain ⟨server, error | tools⟩ := one
  · cases h
  · exact ⟨tools, rfl⟩

theorem cached_names (config : TomlConfig) {asked : List Asked}
    (h : ∀ one ∈ asked, errorsOf ns one = []) :
    (asked.flatMap (cachedOf config)).map CachedServer.name = asked.map Prod.fst := by
  induction asked with
  | nil => rfl
  | cons one rest ih =>
    obtain ⟨hone, hrest⟩ := List.forall_mem_cons.mp h
    obtain ⟨server, outcome⟩ := one
    obtain ⟨tools, rfl⟩ := errorsOf_nil hone
    rw [List.flatMap_cons, List.map_append, ih hrest]
    rfl

theorem summaries_recalls {asked : List Asked} (hall : ∀ one ∈ asked, errorsOf ns one = [])
    (hnodup : (asked.map Prod.fst).Nodup) {active : ActiveNamespace}
    (hvisible : ∀ s, active.isServerAllowed s = true ↔ s ∈ asked.map Prod.fst) :
    Recalls active asked (summaries active (asked.flatMap (cachedOf config))) := by
  have hnames := cached_names config hall
  constructor
  · intro server outcome hmem
    obtain ⟨tools, rfl⟩ := errorsOf_nil (hall _ hmem)
    refine ⟨tools, rfl, ?_⟩
    have hallowed := (hvisible server).mpr (List.mem_map_of_mem hmem)
    have hcached : ⟨server, ((config.servers.lookup server).bind ServerConfig.description).getD [],
        tools.map cachedTool⟩ ∈ asked.flatMap (cachedOf config) :=
      List.mem_flatMap.mpr ⟨_, hmem, List.mem_singleton.mpr rfl⟩
    have hfilter := List.mem_filter (p := fun server => active.isServerAllowed server.name).mpr
      ⟨hcached, hallowed⟩
    have hdistinct : (((asked.flatMap (cachedOf config)).filter fun server =>
        active.isServerAllowed server.name).map CachedServer.name).Nodup :=
      (List.filter_sublist.map CachedServer.name).nodup (hnames ▸ hnodup)
    rw [← allowedTools_cached]
    exact lookup_inserted hdistinct hfilter
  · intro server hdenied
    rw [summaries, lookup_inserted_none]
    · rfl
    · rintro x hx rfl
      exact absurd (hdenied.symm.trans (List.mem_filter.mp hx).2) Bool.false_ne_true

end ReadingBack

section RoundTrip
variable (serde : Serde) (disk : Disk) (now : Text) (c₁ c₂ : TomlConfig) (n₁ n₂ : ActiveNamespace)
  (outcomes : List (Outcome (List Tool)))

/-- After a full check without errors has written the cache, a lookup under a
namespace of the same name gives each visible server's inventoried tools that
the namespace allows if the two configurations agree, and nothing if they do
not. -/
theorem cache_round_trip (hstem : isValidCacheNamespaceStem n₁.name = true) (hdisk : Takes disk)
    (hlen : outcomes.length = n₁.allowedServers.length)
    (hok : (fullCheck c₁ n₁ outcomes).ok = true)
    (hserde : serde.fromSlice
        (serde.toVecPretty (capabilityCache now c₁ n₁ (fullCheck c₁ n₁ outcomes))) =
      some (capabilityCache now c₁ n₁ (fullCheck c₁ n₁ outcomes)))
    (hname : n₂.name = n₁.name) :
    let files := (writeCapabilityCache serde disk now c₁ n₁ (fullCheck c₁ n₁ outcomes)).2
    let found := matchingCacheToolSummaries serde { disk with files := files } c₂ n₂
    (Agree c₁ n₁ c₂ n₂ → Recalls n₂ (n₁.allowedServers.zip outcomes) found) ∧
      (¬ Agree c₁ n₁ c₂ n₂ → found = ∅) := by
  intro files found
  have hfound : found = if configFingerprint c₁ n₁ = configFingerprint c₂ n₂ then
      summaries n₂ (fullCheck c₁ n₁ outcomes).cacheServers else ∅ :=
    matching_stored hdisk hstem hserde hname rfl
  have hfst : (n₁.allowedServers.zip outcomes).map Prod.fst = n₁.allowedServers :=
    List.map_fst_zip hlen.ge
  have herrors : ∀ one ∈ n₁.allowedServers.zip outcomes, errorsOf n₁ one = [] := by
    simpa [fullCheck, CheckResult.concluded, recordAll_eq, CheckResult.new] using hok
  constructor
  · intro hagree
    have hvisible : ∀ s, n₂.isServerAllowed s = true ↔
        s ∈ (n₁.allowedServers.zip outcomes).map Prod.fst := by
      intro s
      rw [hfst, ← mem_allowedServers, ActiveNamespace.allowedServers, ← hagree.visible,
        ActiveNamespace.allowedServers]
    have hcache : (fullCheck c₁ n₁ outcomes).cacheServers =
        (n₁.allowedServers.zip outcomes).flatMap (cachedOf c₁) := by
      simp [fullCheck, CheckResult.concluded, recordAll_eq, CheckResult.new]
    have hnodup : ((n₁.allowedServers.zip outcomes).map Prod.fst).Nodup := by
      rw [hfst]
      exact Finset.sort_nodup _ _
    rw [hfound, if_pos (configFingerprint_eq.mpr ⟨hname.symm, hagree⟩), hcache]
    exact summaries_recalls herrors hnodup hvisible
  · intro hdiffers
    rw [hfound, if_neg fun h => hdiffers (configFingerprint_eq.mp h).2]

theorem agree_refl (c : TomlConfig) (n : ActiveNamespace) : Agree c n c n where
  visible := rfl
  filters _ := rfl
  servers s _ := by
    rw [← map_fromConfig_eq s]

def shop : TomlConfig where
  servers := List.toAList [⟨"db".toList, { command := some "db-mcp".toList }⟩]

def clerk : ActiveNamespace where
  name := "default".toList
  servers := {"db".toList}
  tools := List.toAList [⟨"db".toList, {"query".toList}⟩]

def dbTools : List Tool :=
  [⟨"drop".toList, none, []⟩, ⟨"query".toList, some "Run SQL".toList, []⟩]

def emptyDisk : Disk where
  vars name := if name = "FANIN_MCP_CACHE_DIR".toList then some "/cache".toList else none
  files _ := none

theorem clerk_allowed : clerk.allowedServers = ["db".toList] := Finset.sort_singleton _ _

theorem shop_checked : (fullCheck shop clerk [.ok dbTools]).ok = true := by
  have htools : explicitTools clerk "db".toList = ["query".toList] := Finset.sort_singleton _ _
  have hmissing : missingTools clerk "db".toList (dbTools.map cachedTool) = [] := by
    rw [missingTools, htools]
    decide
  have herrors : errorsOf clerk ("db".toList, .ok dbTools) = [] := by
    rw [errorsOf, hmissing]
    rfl
  rw [fullCheck, recordAll_eq, clerk_allowed]
  show ([] ++ List.flatMap (errorsOf clerk) [("db".toList, .ok dbTools)]).isEmpty = true
  rw [List.flatMap_singleton, herrors]
  rfl

theorem cache_round_trip_shop :
    (matchingCacheToolSummaries serdeJson
      { emptyDisk with files := (writeCapabilityCache serdeJson emptyDisk
          "2026-01-01T00:00:00Z".toList shop clerk (fullCheck shop clerk [.ok dbTools])).2 }
      shop clerk).lookup "db".toList = some [("query".toList, "Run SQL".toList)] := by
  have hlen : [(.ok dbTools : Outcome (List Tool))].length = clerk.allowedServers.length := by
    rw [clerk_allowed]
    rfl
  have h := cache_round_trip serdeJson emptyDisk "2026-01-01T00:00:00Z".toList shop shop clerk clerk
    [.ok dbTools] (by decide) ⟨by decide, rfl, rfl⟩ hlen shop_checked
    (serdeJson_reads (by decide) (readValue_fingerprint shop clerk)) rfl
  have hasked : ("db".toList, Except.ok dbTools) ∈ clerk.allowedServers.zip
      [(.ok dbTools : Outcome (List Tool))] := by
    rw [clerk_allowed]
    exact List.mem_singleton.mpr rfl
  obtain ⟨tools, htools, hlookup⟩ := (h.1 (agree_refl shop clerk)).visible _ _ hasked
  obtain rfl := Except.ok.inj htools
  rw [hlookup]
  decide

end RoundTrip

end FaninMcp.CacheRoundTrip
