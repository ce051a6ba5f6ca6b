import FaninMcp.CapabilityCache

/-!
# Where cache files lie

A path is read component by component, and reading it that way forgets doubled
separators and single dots. A namespace gets a cache file exactly when its name
reads as the one component it is spelled as.
-/

set_option autoImplicit false

namespace FaninMcp.CachePaths
open Foundation.RustText FaninMcp.CapabilityCache

structure Stem (text : Text) : Prop where
  ne_nil : text ≠ []
  no_slash : '/' ∉ text
  ne_dot : text ≠ ['.']
  ne_dots : text ≠ ['.', '.']

section Components

@[simp] theorem component_nil (leading : Bool) : component leading [] = none := rfl

theorem component_stem {leading : Bool} {text : Text} (h : Stem text) :
    component leading text = some (.normal text) := by
  rw [component, if_neg h.ne_nil, if_neg h.ne_dot, if_neg h.ne_dots]

theorem component_normal {leading : Bool} {part text : Text}
    (h : component leading part = some (.normal text)) :
    part = text ∧ text ≠ [] ∧ text ≠ ['.'] ∧ text ≠ ['.', '.'] := by
  rw [component] at h
  split_ifs at h with h0 h1 h2 h3
  · cases h
  · cases h
  · cases h
    exact ⟨rfl, h0, h1, h3⟩

theorem component_leading {part : Text} (h : part ≠ []) :
    ∃ first, component true part = some first := by
  by_cases hdot : part = ['.']
  · exact ⟨.curDir, by rw [component, if_neg h, if_pos hdot, if_pos rfl]⟩
  · by_cases hdots : part = ['.', '.']
    · exact ⟨.parentDir, by rw [component, if_neg h, if_neg hdot, if_pos hdots]⟩
    · exact ⟨.normal part, by rw [component, if_neg h, if_neg hdot, if_neg hdots]⟩

theorem components_rooted (tail : Text) :
    components ('/'::tail) = .rootDir :: (tail.splitOn '/').filterMap (component false) := by
  have hsplit : ('/'::tail).splitOn '/' = [] :: tail.splitOn '/' := by
    simpa using List.splitOn_append_cons_self [] tail (a := '/')
  rw [components, hsplit]
  rfl

theorem components_behind {path : Text} (hpath : path ≠ []) (tail : Text) :
    components (path ++ '/'::tail) =
      components path ++ (tail.splitOn '/').filterMap (component false) := by
  obtain ⟨c, cs, rfl⟩ := List.exists_cons_of_ne_nil hpath
  obtain ⟨first, rest, hfirst⟩ := List.exists_cons_of_ne_nil (List.splitOn_ne_nil '/' (c::cs))
  have hsplit := List.splitOn_append_cons_self (c::cs) tail (a := '/')
  rw [hfirst] at hsplit
  rw [components, hsplit, components, hfirst]
  by_cases hc : c = '/' <;> simp [hc]

theorem components_whole {text : Text} (h : '/' ∉ text) :
    components text = (component true text).toList := by
  have hhead : text.head? ≠ some '/' := fun hin => h (List.mem_of_mem_head? hin)
  simp only [components, List.splitOn_eq_singleton h, if_neg hhead, List.filterMap_nil,
    List.append_nil]

theorem components_stem {text : Text} (h : Stem text) : components text = [.normal text] := by
  rw [components_whole h.no_slash, component_stem h]
  rfl

theorem components_join (base : Text) {text : Text} (h : Stem text) :
    components (join base text) = components base ++ [.normal text] := by
  have hhead : text.head? ≠ some '/' := fun hin => h.no_slash (List.mem_of_mem_head? hin)
  have hlast : (text.splitOn '/').filterMap (component false) = [.normal text] := by
    rw [List.splitOn_eq_singleton h.no_slash, List.filterMap_cons_some (component_stem h)]
    rfl
  rw [join, if_neg hhead]
  split_ifs with hbase
  · rcases hbase with rfl | hslash
    · exact components_stem h
    · obtain ⟨init, rfl⟩ := List.getLast?_eq_some_iff.mp hslash
      rw [List.append_assoc]
      by_cases hinit : init = []
      · subst hinit
        simp only [List.nil_append, List.singleton_append, components_rooted, hlast]
        rfl
      · rw [List.singleton_append, components_behind hinit, components_behind hinit, hlast]
        simp
  · rw [not_or] at hbase
    rw [components_behind hbase.1, hlast]

theorem stem_of_components {text : Text} (h : components text = [.normal text]) : Stem text := by
  have hslash : '/' ∉ text := by
    intro hin
    obtain ⟨before, after, rfl, hbefore⟩ := List.eq_append_cons_of_mem hin
    by_cases hempty : before = []
    · subst hempty
      rw [List.nil_append, components_rooted] at h
      cases h
    · obtain ⟨first, hfirst⟩ := component_leading hempty
      rw [components_behind hempty, components_whole hbefore, hfirst] at h
      obtain ⟨rfl, -⟩ := List.cons.inj h
      have hlength := congrArg List.length (component_normal hfirst).1
      simp at hlength
  rw [components_whole hslash] at h
  obtain ⟨-, hne, hdot, hdots⟩ := component_normal (Option.toList_eq_singleton_iff.mp h)
  exact ⟨hne, hslash, hdot, hdots⟩

end Components

section Paths

theorem isValidCacheNamespaceStem_iff {ns : Text} :
    isValidCacheNamespaceStem ns = true ↔ Stem ns := by
  constructor
  · intro h
    rw [isValidCacheNamespaceStem] at h
    split at h
    · next text rest hcomponents =>
      obtain ⟨rfl, hrest⟩ := by simpa using h
      exact stem_of_components (by rw [hcomponents, hrest])
    · cases h
  · intro h
    rw [isValidCacheNamespaceStem, components_stem h]
    simp

theorem stem_json {ns : Text} (h : Stem ns) : Stem (ns ++ ".json".toList) := by
  have hlength : 5 ≤ (ns ++ ".json".toList).length := by simp
  refine ⟨fun heq => ?_, ?_, fun heq => ?_, fun heq => ?_⟩
  · rw [heq] at hlength
    simp at hlength
  · rw [List.mem_append, not_or]
    exact ⟨h.no_slash, by decide⟩
  · rw [heq] at hlength
    simp at hlength
  · rw [heq] at hlength
    simp at hlength

def cacheRoot (vars : Vars) : Option Text :=
  (vars "FANIN_MCP_CACHE_DIR".toList).or (platformCacheDir vars)

def capabilitiesDir (root : Text) : Text :=
  join (join root "fanin-mcp".toList) "capabilities".toList

theorem components_capabilitiesDir (root : Text) : components (capabilitiesDir root) =
    components root ++ [.normal "fanin-mcp".toList, .normal "capabilities".toList] := by
  have hproduct : Stem "fanin-mcp".toList := ⟨by decide, by decide, by decide, by decide⟩
  have hkind : Stem "capabilities".toList := ⟨by decide, by decide, by decide, by decide⟩
  rw [capabilitiesDir, components_join _ hkind, components_join _ hproduct]
  simp

theorem capabilityCachePath_eq (vars : Vars) {ns path : Text} :
    capabilityCachePath vars ns = some path ↔ Stem ns ∧ ∃ root, cacheRoot vars = some root ∧
      path = join (capabilitiesDir root) (ns ++ ".json".toList) := by
  rw [capabilityCachePath]
  split_ifs with h
  · rw [isValidCacheNamespaceStem_iff] at h
    simp [h, cacheRoot, capabilitiesDir, eq_comm]
  · rw [isValidCacheNamespaceStem_iff] at h
    simp [h]

/-- Below any directory, exactly the names of one component have a file. It
lies in the directory for these files itself, and a file has one name. -/
theorem cache_paths_confined (vars : Vars) (root ns : Text) (h : cacheRoot vars = some root) :
    ((∃ path, capabilityCachePath vars ns = some path) ↔
      ns ≠ [] ∧ '/' ∉ ns ∧ ns ≠ ['.'] ∧ ns ≠ ['.', '.']) ∧
    ∀ path, capabilityCachePath vars ns = some path →
      components path = components (capabilitiesDir root) ++ [.normal (ns ++ ".json".toList)] ∧
      components (capabilitiesDir root) =
        components root ++ [.normal "fanin-mcp".toList, .normal "capabilities".toList] ∧
      ∀ vars' ns' path', capabilityCachePath vars' ns' = some path' →
        components path' = components path → ns' = ns := by
  have hread : ∀ {vars ns path}, capabilityCachePath vars ns = some path →
      ∃ root, cacheRoot vars = some root ∧
        components path = components (capabilitiesDir root) ++ [.normal (ns ++ ".json".toList)] := by
    intro vars ns path hpath
    obtain ⟨hns, root, hroot, rfl⟩ := (capabilityCachePath_eq vars).mp hpath
    exact ⟨root, hroot, components_join _ (stem_json hns)⟩
  refine ⟨⟨?_, ?_⟩, fun path hpath => ⟨?_, components_capabilitiesDir root, ?_⟩⟩
  · rintro ⟨path, hpath⟩
    obtain ⟨hns, -⟩ := (capabilityCachePath_eq vars).mp hpath
    exact ⟨hns.ne_nil, hns.no_slash, hns.ne_dot, hns.ne_dots⟩
  · rintro ⟨hne, hslash, hdot, hdots⟩
    exact ⟨_, (capabilityCachePath_eq vars).mpr ⟨⟨hne, hslash, hdot, hdots⟩, root, h, rfl⟩⟩
  · obtain ⟨root', hroot, hcomponents⟩ := hread hpath
    rw [h] at hroot
    cases hroot
    exact hcomponents
  · intro vars' ns' path' hpath' hsame
    obtain ⟨_, -, hcomponents⟩ := hread hpath
    obtain ⟨_, -, hcomponents'⟩ := hread hpath'
    rw [hcomponents, hcomponents'] at hsame
    have hlast := (List.append_inj' hsame rfl).2
    simpa using hlast

def ownDirectory : Vars := fun name =>
  if name = "FANIN_MCP_CACHE_DIR".toList then some "/var/cache".toList else none

theorem cache_paths_confined_own :
    ((∃ path, capabilityCachePath ownDirectory "a.b".toList = some path) ↔
      "a.b".toList ≠ [] ∧ '/' ∉ "a.b".toList ∧ "a.b".toList ≠ ['.'] ∧ "a.b".toList ≠ ['.', '.']) :=
  (cache_paths_confined ownDirectory "/var/cache".toList "a.b".toList rfl).1

end Paths

end FaninMcp.CachePaths
