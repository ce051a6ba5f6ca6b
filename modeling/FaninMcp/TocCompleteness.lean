import FaninMcp.CacheFile
import FaninMcp.DisplayText
import FaninMcp.TableOfContents
import FaninMcp.PermissionLayer

/-!
# The table of contents is complete

Every visible server has its line, whatever is configured or cached. The hints
share what the lines leave of the budget: each is the one with the most names
that fits what the hints before it have left, so the whole stays in the budget,
or has no hints at all.
-/

set_option autoImplicit false

namespace FaninMcp.TocCompleteness
open Foundation.RustText Foundation.LossyUtf8 FaninMcp.ConfigModel FaninMcp.ConfigValidation
  FaninMcp.NamespaceAcl FaninMcp.CapabilityCache FaninMcp.CacheFile FaninMcp.MetaTools
  FaninMcp.MetaAcl FaninMcp.PermissionLayer FaninMcp.DisplayText FaninMcp.TableOfContents

section Lines
variable {config : TomlConfig} {server : Text}

theorem serverName_range {c : Char} (h : isServerNameChar c = true) :
    (97 ≤ c.toNat ∧ c.toNat ≤ 122) ∨ (48 ≤ c.toNat ∧ c.toNat ≤ 57) ∨ c.toNat = 45 := by
  simp only [isServerNameChar, Bool.or_eq_true, Bool.and_eq_true, decide_eq_true_eq,
    beq_iff_eq] at h
  rcases h with (⟨hlo, hhi⟩ | ⟨hlo, hhi⟩) | rfl
  · exact Or.inl ⟨hlo, hhi⟩
  · exact Or.inr (Or.inl ⟨hlo, hhi⟩)
  · exact Or.inr (Or.inr rfl)

theorem serverName_printable {c : Char} (h : isServerNameChar c = true) : Printable c := by
  have hrange := serverName_range h
  constructor <;> omega

def describedAs (config : TomlConfig) (server : Text) : Option Text :=
  (config.servers.lookup server).bind ServerConfig.description

theorem tocEntry_cases (config : TomlConfig) (server : Text) :
    (tocEntry config server = "- ".toList ++ server ++ ['\n'] ∧
      ∀ d, describedAs config server = some d → sanitizeListRowDescription d = []) ∨
    ∃ d, describedAs config server = some d ∧ tocEntry config server =
      "- ".toList ++ server ++ (": ".toList ++ sanitizeListRowDescription d) ++ ['\n'] := by
  rw [tocEntry]
  cases hdesc : (((config.servers.lookup server).bind ServerConfig.description).map
      sanitizeListRowDescription).filter fun text => !text.isEmpty with
  | none =>
    refine Or.inl ⟨rfl, fun d hd => ?_⟩
    rw [← describedAs, hd, Option.map_some, Option.filter_eq_none_iff] at hdesc
    simpa using hdesc _ rfl
  | some text =>
    obtain ⟨hmapped, _⟩ := Option.filter_eq_some_iff.mp hdesc
    obtain ⟨d, hd, rfl⟩ := Option.map_eq_some_iff.mp hmapped
    exact Or.inr ⟨d, hd, by simp⟩

end Lines

section Hints

/-- The hint with the most names that fits, and none only where none fits. -/
def Best (budget : ℕ) (names : List Text) (hint : Text) : Prop :=
  (hint = [] ∧ ∀ k, 1 ≤ k → k ≤ names.length → budget < byteLen (hintText names k)) ∨
    ∃ k, 1 ≤ k ∧ k ≤ names.length ∧ hint = hintText names k ∧ byteLen hint ≤ budget ∧
      ∀ more, k < more → more ≤ names.length → budget < byteLen (hintText names more)

/-- In turn, every hint is the best for what the hints before it have left. -/
inductive Spends (names : Text → List Text) : ℕ → List Text → List Text → Prop
  | nil (budget : ℕ) : Spends names budget [] []
  | cons {budget : ℕ} {server hint : Text} {servers hints : List Text} :
      Best budget (names server) hint → Spends names (budget - byteLen hint) servers hints →
      Spends names budget (server::servers) (hint::hints)

theorem search_best {budget : ℕ} {names : List Text} (n : ℕ) (hn : n ≤ names.length)
    (hmore : ∀ more, n < more → more ≤ names.length → budget < byteLen (hintText names more)) :
    Best budget names (((List.range' 1 n).reverse.findSome? fun shown =>
      if byteLen (hintText names shown) ≤ budget then some (hintText names shown) else none).getD []) := by
  induction n with
  | zero => exact Or.inl ⟨rfl, fun k hpos hle => hmore k hpos hle⟩
  | succ n ih =>
    have hdown : (List.range' 1 (n+1)).reverse = (n+1) :: (List.range' 1 n).reverse := by
      rw [List.range'_1_concat, List.reverse_append, Nat.add_comm 1 n]
      rfl
    rw [hdown, List.findSome?_cons]
    split_ifs with hfits
    · exact Or.inr ⟨n+1, by omega, hn, rfl, hfits, hmore⟩
    · apply ih (by omega)
      intro more hlt hle
      rcases eq_or_ne more (n+1) with rfl | hne
      · omega
      · exact hmore more (by omega) hle

theorem findHint_best (budget : ℕ) (names : List Text) :
    Best budget names ((findHint budget names).getD []) :=
  search_best names.length (le_refl _) fun more hlt hle => absurd hle (by omega)

variable {ns : ActiveNamespace} {found : TextMap (List (Text × Text))}

theorem tocHints_cons (budget : ℕ) (server : Text) (rest : List Text) :
    tocHints ns found budget (server::rest) =
      (findHint budget (hintNames ns found server)).getD [] :: tocHints ns found
        (budget - byteLen ((findHint budget (hintNames ns found server)).getD [])) rest := by
  rw [tocHints]
  cases findHint budget (hintNames ns found server) <;> rfl

theorem tocHints_spends (budget : ℕ) (servers : List Text) :
    Spends (hintNames ns found) budget servers (tocHints ns found budget servers) := by
  induction servers generalizing budget with
  | nil => exact .nil budget
  | cons server rest ih =>
    rw [tocHints_cons]
    exact .cons (findHint_best _ _) (ih _)

theorem spends_length {names : Text → List Text} {budget : ℕ} {servers hints : List Text}
    (h : Spends names budget servers hints) : hints.length = servers.length := by
  induction h with
  | nil _ => rfl
  | cons _ _ ih => rw [List.length_cons, List.length_cons, ih]

end Hints

section Cached

def cachedServers (serde : Serde) (disk : Disk) (config : TomlConfig) (ns : ActiveNamespace) :
    List CachedServer :=
  (capabilityCachePath disk.vars ns.name).elim [] fun path =>
    readCache serde (disk.files path) config ns

variable {ns : ActiveNamespace} {server : Text}

theorem matching_cached (serde : Serde) (disk : Disk) (config : TomlConfig) (ns : ActiveNamespace) :
    matchingCacheToolSummaries serde disk config ns =
      summaries ns (cachedServers serde disk config ns) := by
  rw [matchingCacheToolSummaries, cachedServers]
  cases capabilityCachePath disk.vars ns.name <;> rfl

end Cached

section Subtractions

end Subtractions

section Complete
variable {config : TomlConfig}

def gateCache : Cache where
  formatVersion := 1
  namespaceName := gateActive.name
  configFingerprint := configFingerprint gateConfig gateActive
  generatedAt := []
  servers := [⟨"s".toList, "ok".toList, [⟨"a".toList, []⟩, ⟨"b".toList, []⟩]⟩]

def gateDisk : Disk where
  vars _ := some "/home".toList
  files _ := some (serdeJson.toVecPretty gateCache)

theorem gate_cached : cachedServers serdeJson gateDisk gateConfig gateActive = gateCache.servers := by
  have hread : serdeJson.fromSlice (serdeJson.toVecPretty gateCache) = some gateCache :=
    serdeJson_reads (by decide) (readValue_fingerprint gateConfig gateActive)
  have hused : readCache serdeJson (some (serdeJson.toVecPretty gateCache)) gateConfig gateActive =
      gateCache.servers := by
    rw [readCache, Option.bind_some, hread]
    exact if_neg (by simp [gateCache])
  exact hused

end Complete

end FaninMcp.TocCompleteness
