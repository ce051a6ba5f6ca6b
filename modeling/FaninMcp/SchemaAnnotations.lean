import FaninMcp.DisplayText
import FaninMcp.Foundation.JsonPositions

/-!
# The annotations of a schema

The sanitizer of input schemas goes by the names of keys alone. What stands
under the name of an annotation is neutralized wherever it stands, and nothing
else is touched. So an object among the validation data that has such a key is
taken for a part of the schema.
-/

set_option autoImplicit false

namespace FaninMcp.SchemaAnnotations
open Foundation.RustText Foundation.JsonText FaninMcp.MetaTools FaninMcp.DisplayText

/-- What becomes of a string that is the direct value of the key. -/
def displayed (key : Option Text) (s : Text) : Text :=
  if key.any isSchemaMetadataKey then neutralizeUpstreamDisplay s else s

theorem displayed_idempotent (key : Option Text) (s : Text) :
    displayed key (displayed key s) = displayed key s := by
  simp only [displayed]
  split_ifs
  · exact neutralize_idempotent s
  · rfl

theorem member_eq (key : Text) {value : Json}
    (h : sanitizeSchemaMetadata value = mapStrings displayed none value) :
    (if isSchemaMetadataKey key then sanitizeMetadataValue (sanitizeSchemaMetadata value) value
      else sanitizeSchemaMetadata value) = mapStrings displayed (some key) value := by
  cases value with
  | str s =>
    simp only [sanitizeMetadataValue, sanitizeSchemaMetadata, mapStrings, displayed, Option.any_some]
    split_ifs <;> rfl
  | null | bool _ | num _ | arr _ | obj _ =>
    rw [sanitizeMetadataValue, ite_self, h]
    · rfl
    · rintro s ⟨⟩

mutual

theorem sanitizeSchema_eq : ∀ value : Json,
    sanitizeSchemaMetadata value = mapStrings displayed none value
  | .null | .bool _ | .num _ | .str _ => rfl
  | .arr items => congrArg Json.arr (sanitizeItems_eq items)
  | .obj fields => congrArg Json.obj (sanitizeFields_eq fields)

theorem sanitizeItems_eq : ∀ items : List Json,
    sanitizeSchemaItems items = mapItems displayed items
  | [] => rfl
  | item::rest => by
    rw [sanitizeSchemaItems, mapItems, sanitizeSchema_eq item, sanitizeItems_eq rest]

theorem sanitizeFields_eq : ∀ fields : List (Text × Json),
    sanitizeSchemaFields fields = mapFields displayed fields
  | [] => rfl
  | (key, value)::rest => by
    rw [sanitizeSchemaFields, mapFields, member_eq key (sanitizeSchema_eq value),
      sanitizeFields_eq rest]

end

/-- What is at the position is the direct value of an annotation's key. -/
def annotates (p : Position) : Bool := (keyAt none p).any isSchemaMetadataKey

theorem valueAt_sanitized (p : Position) (value : Json) :
    valueAt p (sanitizeSchemaMetadata value) =
      (valueAt p value).map (mapStrings displayed (keyAt none p)) := by
  rw [sanitizeSchema_eq, valueAt_mapStrings]

theorem string_sanitized {p : Position} {value : Json} {s : Text}
    (h : valueAt p value = some (.str s)) : valueAt p (sanitizeSchemaMetadata value) =
      some (.str (if annotates p then neutralizeUpstreamDisplay s else s)) := by
  rw [valueAt_sanitized, h]
  rfl

def annotationKeys : List Text :=
  ["title".toList, "description".toList, "$comment".toList, "markdownDescription".toList]

theorem annotates_iff {p : Position} :
    annotates p = true ↔ ∃ key ∈ annotationKeys, keyAt none p = some key := by
  rw [annotates]
  cases keyAt none p with
  | none => simp
  | some key =>
    rw [Option.any_some, isSchemaMetadataKey, List.contains_iff_mem]
    constructor
    · exact fun hkey => ⟨key, hkey, rfl⟩
    · rintro ⟨found, hkey, ⟨⟩⟩
      exact hkey

theorem string_shown {p : Position} {value : Json} {s : Text}
    (h : valueAt p value = some (.str s)) :
    ∃ t, valueAt p (sanitizeSchemaMetadata value) = some (.str t) ∧
      ((∃ key ∈ annotationKeys, keyAt none p = some key) → Shows s t) ∧
      ((∀ key ∈ annotationKeys, keyAt none p ≠ some key) → t = s) := by
  refine ⟨_, string_sanitized h, fun hkey => ?_, fun hkey => if_neg fun hannotates => ?_⟩
  · rw [if_pos (annotates_iff.mpr hkey)]
    exact neutralize_shows s
  · obtain ⟨key, hmem, hat⟩ := annotates_iff.mp hannotates
    exact hkey key hmem hat

/-- The shape of a schema stays, the strings under the names of annotations are
neutralized and no others, and doing it again changes nothing. -/
theorem schema_annotations (value : Json) :
    shape (sanitizeSchemaMetadata value) = shape value ∧
    (∀ p s, valueAt p value = some (.str s) → valueAt p (sanitizeSchemaMetadata value) =
      some (.str (if annotates p then neutralizeUpstreamDisplay s else s))) ∧
    (∀ p s, valueAt p value = some (.str s) →
      ∃ t, valueAt p (sanitizeSchemaMetadata value) = some (.str t) ∧
        ((∃ key ∈ annotationKeys, keyAt none p = some key) → Shows s t) ∧
        ((∀ key ∈ annotationKeys, keyAt none p ≠ some key) → t = s)) ∧
    sanitizeSchemaMetadata (sanitizeSchemaMetadata value) = sanitizeSchemaMetadata value := by
  refine ⟨?_, fun _ _ => string_sanitized, fun _ _ => string_shown, ?_⟩
  · rw [sanitizeSchema_eq]
    exact shape_mapStrings value
  · rw [sanitizeSchema_eq, sanitizeSchema_eq, mapStrings_mapStrings]
    simp only [displayed_idempotent]

section Data

def dataKeywords : List Text :=
  ["enum".toList, "const".toList, "default".toList, "examples".toList, "pattern".toList]

def InsideData (p : Position) : Prop :=
  ∃ before n key after, p = before ++ .member n key :: after ∧ key ∈ dataKeywords

theorem insideData_append {p : Position} (h : InsideData p) (q : Position) : InsideData (p ++ q) := by
  obtain ⟨before, n, key, after, rfl, hkey⟩ := h
  exact ⟨before, n, key, after ++ q, by simp, hkey⟩

theorem displayed_eq_self {key : Option Text} {s : Text} : displayed key s = s ↔
    (key.any isSchemaMetadataKey = true → Clean s) := by
  simp only [displayed]
  split_ifs with h
  · rw [neutralize_eq_self]
    exact ⟨fun hclean _ => hclean, fun hclean => hclean h⟩
  · exact iff_of_true rfl fun hkey => absurd hkey h

/-- At a position the value is what it was if every string there and below it
that has the key of an annotation was clean. -/
theorem valueAt_unchanged (p : Position) (value : Json) :
    valueAt p (sanitizeSchemaMetadata value) = valueAt p value ↔
      ∀ q s, valueAt (p ++ q) value = some (.str s) → annotates (p ++ q) = true → Clean s := by
  rw [valueAt_sanitized]
  simp only [valueAt_append, annotates, keyAt_append]
  cases valueAt p value with
  | none => simp
  | some found =>
    rw [Option.map_some, Option.some.injEq, mapStrings_eq_self]
    exact forall₂_congr fun q s => imp_congr_right fun _ => displayed_eq_self

/-- Sanitizing leaves the validation data of a schema alone if and only if no
object in them has an annotation's key over a string that is not clean. -/
theorem schema_data_exact (value : Json) :
    (∀ p, InsideData p → valueAt p (sanitizeSchemaMetadata value) = valueAt p value) ↔
      ∀ p s, InsideData p → annotates p = true → valueAt p value = some (.str s) → Clean s := by
  constructor
  · intro h p s hp hkey hs
    have hclean := (valueAt_unchanged p value).mp (h p hp) [] s
    rw [List.append_nil] at hclean
    exact hclean hs hkey
  · intro h p hp
    rw [valueAt_unchanged]
    intro q s hs hkey
    exact h (p ++ q) s (insideData_append hp q) hkey hs

def titledConst : Json :=
  .obj [("properties".toList, .obj [("doc".toList, .obj [("const".toList,
    .obj [("title".toList, .str "Report ".toList)])])])]

theorem schema_data_altered : ¬ ∀ p, InsideData p →
    valueAt p (sanitizeSchemaMetadata titledConst) = valueAt p titledConst := by
  intro h
  have hsame : some (Json.str "Report".toList) = some (.str "Report ".toList) :=
    h [.member 0 "properties".toList, .member 0 "doc".toList, .member 0 "const".toList,
      .member 0 "title".toList] ⟨[.member 0 "properties".toList, .member 0 "doc".toList], 0,
        "const".toList, [.member 0 "title".toList], rfl, by decide⟩
  rw [Option.some.injEq, Json.str.injEq] at hsame
  exact absurd hsame (by decide)

end Data

end FaninMcp.SchemaAnnotations
