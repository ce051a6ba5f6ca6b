import FaninMcp.CapabilityCache
import FaninMcp.Foundation.JsonPretty

/-!
# The format of the cache file

One serializer and deserializer of the file, for examples: results about the cache
are about every one. The structures are objects with their fields in order, printed
with indentation. They are read from objects by the names of their fields, which
occur once, or from arrays of as many items; a value that is read as it is has
sorted keys, each with what it was given last.
-/

set_option autoImplicit false

namespace FaninMcp.CacheFile
open Foundation.RustText Foundation.JsonText Foundation.LossyUtf8 FaninMcp.ConfigModel
  FaninMcp.CapabilityCache FaninMcp.NamespaceAcl

def CachedTool.json (tool : CachedTool) : Json :=
  .obj [("name".toList, .str tool.name), ("description".toList, .str tool.description)]

def CachedServer.json (server : CachedServer) : Json :=
  .obj [
    ("name".toList, .str server.name),
    ("description".toList, .str server.description),
    ("tools".toList, .arr (server.tools.map CachedTool.json))]

def Cache.json (cache : Cache) : Json :=
  .obj [
    ("format_version".toList, .num (intNumber cache.formatVersion)),
    ("namespace".toList, .str cache.namespaceName),
    ("config_fingerprint".toList, cache.configFingerprint),
    ("generated_at".toList, .str cache.generatedAt),
    ("servers".toList, .arr (cache.servers.map CachedServer.json))]

def readU64 : Json → Option ℕ
  | .num number =>
    if number.text.all Char.isDigit then
      (some (Nat.ofDigitChars 10 number.text 0)).filter fun n => n < 2^64
    else none
  | _ => none

def readList {α : Type} (read : Json → Option α) : Json → Option (List α)
  | .arr items => items.mapM read
  | _ => none

def single (object : JsonObject) (key : Text) : Option Json :=
  match object.filter fun field => field.1 = key with
  | [field] => some field.2
  | _ => none

def fieldsOf (keys : List Text) : Json → Option (List Json)
  | .obj object => keys.mapM (single object)
  | .arr items => if items.length = keys.length then some items else none
  | _ => none

def CachedTool.read (json : Json) : Option CachedTool := do
  let [name, description] ← fieldsOf ["name".toList, "description".toList] json | none
  return ⟨← name.asStr, ← description.asStr⟩

def CachedServer.read (json : Json) : Option CachedServer := do
  let [name, description, tools] ←
    fieldsOf ["name".toList, "description".toList, "tools".toList] json | none
  return ⟨← name.asStr, ← description.asStr, ← readList CachedTool.read tools⟩

/-- `Map::insert`, on a map with sorted keys. -/
def insertMember (key : Text) (value : Json) : JsonObject → JsonObject
  | [] => [(key, value)]
  | (k, v)::rest =>
    if key = k then (k, value)::rest
    else if key ≤ k then (key, value)::(k, v)::rest
    else (k, v)::insertMember key value rest

def collect (fields : JsonObject) : JsonObject :=
  fields.foldl (fun map field => insertMember field.1 field.2 map) []

mutual

def readValue : Json → Json
  | .arr items => .arr (readValues items)
  | .obj fields => .obj (collect (readMembers fields))
  | json => json

def readValues : List Json → List Json
  | [] => []
  | item::rest => readValue item :: readValues rest

def readMembers : JsonObject → JsonObject
  | [] => []
  | (key, value)::rest => (key, readValue value) :: readMembers rest

end

def Cache.read (json : Json) : Option Cache := do
  let [formatVersion, namespaceName, configFingerprint, generatedAt, servers] ←
    fieldsOf ["format_version".toList, "namespace".toList, "config_fingerprint".toList,
      "generated_at".toList, "servers".toList] json | none
  return ⟨← readU64 formatVersion, ← namespaceName.asStr, readValue configFingerprint,
    ← generatedAt.asStr, ← readList CachedServer.read servers⟩

def serdeJson : Serde where
  toVecPretty cache := utf8 (renderPretty 0 (Cache.json cache))
  fromSlice bytes := (fromUtf8 bytes).bind fun text => (parse text).bind Cache.read

theorem readU64_intNumber {n : ℕ} (h : n < 2^64) : readU64 (.num (intNumber n)) = some n := by
  have hall : (Nat.toDigits 10 n).all Char.isDigit = true :=
    List.all_eq_true.mpr fun _ hc => Nat.isDigit_of_mem_toDigits (by decide) (by decide) hc
  rw [readU64, intNumber_text, if_pos hall, Nat.ofDigitChars_ten_toDigits]
  simpa using h

theorem readList_map {α : Type} {json : α → Json} {read : Json → Option α}
    (h : ∀ a, read (json a) = some a) (l : List α) : readList read (.arr (l.map json)) = some l := by
  rw [readList]
  induction l with
  | nil => rfl
  | cons a rest ih => simp [h, ih]

theorem tool_read (tool : CachedTool) : CachedTool.read (CachedTool.json tool) = some tool := rfl

theorem server_read (server : CachedServer) :
    CachedServer.read (CachedServer.json server) = some server := by
  have htools := readList_map tool_read server.tools
  change (do return ⟨server.name, server.description,
    ← readList CachedTool.read (.arr (server.tools.map CachedTool.json))⟩) = some server
  rw [htools]
  rfl

theorem cache_read {cache : Cache} (hversion : cache.formatVersion < 2^64)
    (hvalue : readValue cache.configFingerprint = cache.configFingerprint) :
    Cache.read (Cache.json cache) = some cache := by
  change (do return ⟨← readU64 (.num (intNumber cache.formatVersion)), cache.namespaceName,
    readValue cache.configFingerprint, cache.generatedAt,
    ← readList CachedServer.read (.arr (cache.servers.map CachedServer.json))⟩) = some cache
  rw [readU64_intNumber hversion, readList_map server_read, hvalue]
  rfl

section Values

theorem insertMember_last {key : Text} {value : Json} {object : JsonObject}
    (h : ∀ field ∈ object, field.1 < key) :
    insertMember key value object = object ++ [(key, value)] := by
  induction object with
  | nil => rfl
  | cons field rest ih =>
    obtain ⟨hfield, hrest⟩ := List.forall_mem_cons.mp h
    rw [insertMember, if_neg hfield.ne', if_neg (not_le.mpr hfield), ih hrest]
    rfl

theorem collect_sorted {fields : JsonObject} (h : (fields.map Prod.fst).Pairwise (· < ·)) :
    collect fields = fields := by
  rw [collect]
  induction fields using List.reverseRecOn with
  | nil => rfl
  | append_singleton fields field ih =>
    obtain ⟨hfields, _, hlast⟩ := List.pairwise_append.mp (List.map_append ▸ h)
    rw [List.foldl_append, ih hfields]
    exact insertMember_last fun other hother =>
      hlast other.1 (List.mem_map_of_mem hother) field.1 List.mem_cons_self

theorem readValues_eq (items : List Json) : readValues items = items.map readValue := by
  induction items with
  | nil => rfl
  | cons item rest ih => rw [readValues, ih, List.map_cons]

theorem readMembers_eq (fields : JsonObject) :
    readMembers fields = fields.map fun field => (field.1, readValue field.2) := by
  induction fields with
  | nil => rfl
  | cons field rest ih =>
    obtain ⟨key, value⟩ := field
    rw [readMembers, ih, List.map_cons]

theorem readValue_items {items : List Json} (h : ∀ item ∈ items, readValue item = item) :
    readValue (.arr items) = .arr items := by
  rw [readValue, readValues_eq, List.map_congr_left h, List.map_id']

theorem readValue_object {fields : JsonObject}
    (hsorted : (fields.map Prod.fst).Pairwise (· < ·))
    (h : ∀ field ∈ fields, readValue field.2 = field.2) : readValue (.obj fields) = .obj fields := by
  have hsame : ∀ field ∈ fields, (field.1, readValue field.2) = field := fun field hfield => by
    rw [h field hfield]
  rw [readValue, readMembers_eq, List.map_congr_left hsame, List.map_id', collect_sorted hsorted]

theorem readValue_texts (texts : List Text) : readValue (textArray texts) = textArray texts :=
  readValue_items fun item hitem => by
    obtain ⟨text, _, rfl⟩ := List.mem_map.mp hitem
    rfl

theorem readValue_option (text : Option Text) : readValue (optionText text) = optionText text := by
  cases text <;> rfl

theorem readValue_server (server : FingerprintServer) :
    readValue server.json = server.json := by
  refine readValue_object ?_ ?_
  · change ["args".toList, "command".toList, "cwd_template".toList, "description".toList,
      "endpoint".toList, "name".toList, "timeout_secs".toList,
      "transport".toList].Pairwise (· < ·)
    decide
  · simp only [List.forall_mem_cons]
    exact ⟨readValue_texts _, readValue_option _, readValue_option _, readValue_option _,
      readValue_option _, rfl, rfl, rfl, fun _ h => absurd h List.not_mem_nil⟩

theorem readValue_fingerprint (config : TomlConfig) (ns : ActiveNamespace) :
    readValue (configFingerprint config ns) = configFingerprint config ns := by
  refine readValue_object ?_ ?_
  · change ["allowed_servers".toList, "namespace".toList, "servers".toList,
      "tools".toList].Pairwise (· < ·)
    decide
  · simp only [List.forall_mem_cons]
    refine ⟨readValue_texts _, rfl, ?_, ?_, fun _ h => absurd h List.not_mem_nil⟩
    · refine readValue_items fun item hitem => ?_
      obtain ⟨server, _, rfl⟩ := List.mem_map.mp hitem
      exact readValue_server server
    · refine readValue_object ?_ ?_
      · rw [effectiveToolFilters, List.map_map, List.map_map]
        have hkeys := Finset.sortedLT_sort ns.tools.keys.toFinset
        simpa [Function.comp_def] using hkeys.pairwise
      · intro field hfield
        obtain ⟨filter, _, rfl⟩ := List.mem_map.mp hfield
        exact readValue_texts _

end Values

theorem serdeJson_reads {cache : Cache} (h : cache.formatVersion < 2^64)
    (hvalue : readValue cache.configFingerprint = cache.configFingerprint) :
    serdeJson.fromSlice (serdeJson.toVecPretty cache) = some cache := by
  simp [serdeJson, fromUtf8_utf8, parse_pretty, cache_read h hvalue]

end FaninMcp.CacheFile
