import FaninMcp.CacheFile
import FaninMcp.Foundation.JsonPrefix

/-!
# A cache file that is cut short

The cache is written in place. When a write is interrupted, what is left is the
beginning of the file, and that is never read as a cache: a display that starts
from it starts from nothing, and other namespaces keep what they have.
-/

set_option autoImplicit false

namespace FaninMcp.TornCache
open Foundation.RustText Foundation.JsonText FaninMcp.CapabilityCache FaninMcp.CacheFile
  FaninMcp.NamespaceAcl FaninMcp.ConfigModel
open Foundation.LossyUtf8 (Bytes utf8 fromUtf8 fromUtf8_cut)

/-- What is documented of the serializer, on the files the program writes, whole or
cut short: a structure is printed as an object, and only the UTF-8 of one complete
JSON document is read, as a structure if it is an object or an array. -/
structure Documented (serde : Serde) : Prop where
  prints : ∀ cache, ∃ before fields, serde.toVecPretty cache = utf8 (before ++ ['\x7d']) ∧
    parse (before ++ ['\x7d']) = some (.obj fields)
  reads : ∀ cache n found, serde.fromSlice ((serde.toVecPretty cache).take n) = some found →
    ∃ text json, fromUtf8 ((serde.toVecPretty cache).take n) = some text ∧
      parse text = some json ∧ ((∃ fields, json = .obj fields) ∨ ∃ items, json = .arr items)

section Cutting
variable {serde : Serde}

theorem fromSlice_cut (h : Documented serde) (cache : Cache) {n : ℕ}
    (hn : n < (serde.toVecPretty cache).length) :
    serde.fromSlice ((serde.toVecPretty cache).take n) = none := by
  cases hfound : serde.fromSlice ((serde.toVecPretty cache).take n) with
  | none => rfl
  | some found =>
    exfalso
    obtain ⟨cut, json, hcut, hjson, hstructure⟩ := h.reads cache n found hfound
    obtain ⟨before, fields, hbytes, hparse⟩ := h.prints cache
    rw [hbytes] at hn hcut
    obtain ⟨hsame, hstart⟩ := fromUtf8_cut (List.take_append_drop n _) hcut
    rcases List.prefix_concat_iff.mp hstart with rfl | hshort
    · have hlength := congrArg List.length hsame
      rw [List.length_take] at hlength
      omega
    · obtain ⟨number, rfl⟩ := parse_cut hparse (by decide) hshort json hjson
      obtain ⟨_, hobject⟩ | ⟨_, harray⟩ := hstructure
      · cases hobject
      · cases harray

end Cutting

section Interruption
variable (serde : Serde) (disk : Disk) (cache : Cache)

def interrupted (n : ℕ) (message : Text) : Disk :=
  { disk with
    createDirAll := .ok ()
    write := .error (message, some ((serde.toVecPretty cache).take n)) }

def afterwards (disk : Disk) : Disk := { disk with files := (storeCache serde disk cache).2 }

/-- A write of the cache that is interrupted anywhere leaves nothing that is read for
its namespace, and whatever there was for every other. -/
theorem torn_cache_unread (h : Documented serde) {n : ℕ} (message : Text)
    (hn : n < (serde.toVecPretty cache).length) (config : TomlConfig) (ns : ActiveNamespace) :
    matchingCacheToolSummaries serde (afterwards serde cache (interrupted serde disk cache n message))
        config ns =
      if capabilityCachePath disk.vars ns.name = capabilityCachePath disk.vars cache.namespaceName
      then ∅ else matchingCacheToolSummaries serde disk config ns := by
  have hcut := fromSlice_cut h cache hn
  cases hpath : capabilityCachePath disk.vars ns.name with
  | none => simp [matchingCacheToolSummaries, afterwards, interrupted, hpath]
  | some path =>
    cases hcache : capabilityCachePath disk.vars cache.namespaceName with
    | none => simp [matchingCacheToolSummaries, afterwards, interrupted, storeCache, hpath, hcache]
    | some other =>
      by_cases hsame : path = other
      · subst hsame
        simp [matchingCacheToolSummaries, afterwards, interrupted, storeCache, hpath, hcache,
          readCache, hcut, summaries]
      · simp [matchingCacheToolSummaries, afterwards, interrupted, storeCache, hpath, hcache, hsame]

end Interruption

section Example

theorem prettyFields_last (depth : ℕ) (fields : JsonObject) :
    ∃ before, prettyFields depth fields = before ++ ['\x7d'] := by
  induction fields with
  | nil => exact ⟨newline depth, by rw [prettyFields]⟩
  | cons field fields ih =>
    obtain ⟨key, json⟩ := field
    obtain ⟨before, hbefore⟩ := ih
    rw [prettyFields, hbefore]
    exact ⟨_, (List.append_assoc _ _ _).symm⟩

theorem renderPretty_last (depth : ℕ) (fields : JsonObject) :
    ∃ before, renderPretty depth (.obj fields) = before ++ ['\x7d'] := by
  cases fields with
  | nil => exact ⟨['\x7b'], rfl⟩
  | cons field fields =>
    obtain ⟨key, json⟩ := field
    obtain ⟨before, hbefore⟩ := prettyFields_last depth fields
    rw [renderPretty, hbefore]
    exact ⟨_, (List.append_assoc _ _ _).symm⟩

theorem fieldsOf_structure {keys : List Text} {json : Json} {values : List Json}
    (h : fieldsOf keys json = some values) :
    (∃ fields, json = .obj fields) ∨ ∃ items, json = .arr items := by
  cases json with
  | obj fields => exact Or.inl ⟨fields, rfl⟩
  | arr items => exact Or.inr ⟨items, rfl⟩
  | null | bool _ | num _ | str _ => cases h

theorem serdeJson_documented : Documented serdeJson := by
  constructor
  · intro cache
    obtain ⟨before, hbefore⟩ := renderPretty_last 0 _
    have hparse := parse_pretty 0 (Cache.json cache)
    rw [Cache.json, hbefore] at hparse
    exact ⟨before, _, congrArg utf8 hbefore, hparse⟩
  · intro cache n found h
    obtain ⟨text, htext, hread⟩ := Option.bind_eq_some_iff.mp h
    obtain ⟨json, hjson, hcache⟩ := Option.bind_eq_some_iff.mp hread
    obtain ⟨values, hvalues, _⟩ := Option.bind_eq_some_iff.mp hcache
    exact ⟨text, json, htext, hjson, fieldsOf_structure hvalues⟩

theorem torn_cache_unread_brace :
    matchingCacheToolSummaries serdeJson
      (afterwards serdeJson ⟨1, "default".toList, .null, [], []⟩
        (interrupted serdeJson ⟨fun _ => some "/cache".toList, fun _ => none, .ok (), .ok ()⟩
          ⟨1, "default".toList, .null, [], []⟩ 1 "no space left on device".toList))
      ⟨∅, ∅⟩ ⟨"default".toList, ∅, ∅⟩ = ∅ :=
  (torn_cache_unread _ _ _ serdeJson_documented _ (by decide +kernel) _ _).trans (if_pos rfl)

end Example

end FaninMcp.TornCache
