import FaninMcp.Foundation.JsonText

/-!
# Positions in a JSON value

A position is the way from the root to a value in it. A rewriting of strings
that looks only at the key a string is the value of moves nothing: it has at
every position what the value has there, rewritten.
-/

set_option autoImplicit false

namespace Foundation.JsonText
open Foundation.RustText

/-- A step down. A member of an object is named by its place and its key. -/
inductive Turn where
  | member (index : ℕ) (key : Text)
  | item (index : ℕ)
  deriving DecidableEq

abbrev Position := List Turn

def follow : Turn → Json → Option Json
  | .member n key, .obj fields =>
    match fields[n]? with
    | some (k, value) => if k = key then some value else none
    | none => none
  | .item n, .arr items => items[n]?
  | _, _ => none

def valueAt : Position → Json → Option Json
  | [], value => some value
  | turn::rest, value => (follow turn value).bind (valueAt rest)

def Turn.key : Turn → Option Text
  | .member _ key => some key
  | .item _ => none

/-- The key that a value at the position is the direct value of, if it is not an
item; `key` is that of the root. -/
def keyAt (key : Option Text) : Position → Option Text
  | [] => key
  | turn::rest => keyAt turn.key rest

mutual

/-- Rewrites every string, with the key that it is the direct value of. -/
def mapStrings (f : Option Text → Text → Text) : Option Text → Json → Json
  | key, .str s => .str (f key s)
  | _, .arr items => .arr (mapItems f items)
  | _, .obj fields => .obj (mapFields f fields)
  | _, .null => .null
  | _, .bool b => .bool b
  | _, .num n => .num n

def mapItems (f : Option Text → Text → Text) : List Json → List Json
  | [] => []
  | item::rest => mapStrings f none item :: mapItems f rest

def mapFields (f : Option Text → Text → Text) : List (Text × Json) → List (Text × Json)
  | [] => []
  | (key, value)::rest => (key, mapStrings f (some key) value) :: mapFields f rest

end

/-- The value without what its strings say: the keys of every object, the items
of every array, every number, truth value and null. -/
def shape (value : Json) : Json := mapStrings (fun _ _ => []) none value

section Reading

theorem valueAt_append (p q : Position) (value : Json) :
    valueAt (p ++ q) value = (valueAt p value).bind (valueAt q) := by
  induction p generalizing value with
  | nil => rfl
  | cons turn p ih =>
    rw [List.cons_append, valueAt, valueAt]
    cases follow turn value with
    | none => rfl
    | some next => exact ih next

theorem keyAt_append (key : Option Text) (p q : Position) :
    keyAt key (p ++ q) = keyAt (keyAt key p) q := by
  induction p generalizing key with
  | nil => rfl
  | cons turn p ih => exact ih turn.key

end Reading

section Mapping
variable {f g : Option Text → Text → Text}

theorem mapItems_eq (items : List Json) : mapItems f items = items.map (mapStrings f none) := by
  induction items with
  | nil => rfl
  | cons item rest ih => rw [mapItems, ih, List.map_cons]

theorem mapFields_eq (fields : List (Text × Json)) :
    mapFields f fields = fields.map fun field => (field.1, mapStrings f (some field.1) field.2) := by
  induction fields with
  | nil => rfl
  | cons field rest ih => rw [mapFields, ih, List.map_cons]

theorem follow_mapStrings (turn : Turn) (key : Option Text) (value : Json) :
    follow turn (mapStrings f key value) = (follow turn value).map (mapStrings f turn.key) := by
  cases value with
  | null | bool _ | num _ | str _ => cases turn <;> rfl
  | arr items =>
    cases turn with
    | member _ _ => rfl
    | item n =>
      rw [mapStrings, follow, follow, mapItems_eq, List.getElem?_map]
      rfl
  | obj fields =>
    cases turn with
    | item _ => rfl
    | member n k =>
      rw [mapStrings, follow, follow, mapFields_eq, List.getElem?_map]
      cases fields[n]? with
      | none => rfl
      | some field =>
        simp only [Option.map_some]
        split_ifs with hk
        · rw [← hk]
          rfl
        · rfl

theorem valueAt_mapStrings (p : Position) (key : Option Text) (value : Json) :
    valueAt p (mapStrings f key value) = (valueAt p value).map (mapStrings f (keyAt key p)) := by
  induction p generalizing key value with
  | nil => rfl
  | cons turn p ih =>
    rw [valueAt, valueAt, follow_mapStrings]
    cases follow turn value with
    | none => rfl
    | some next => exact ih turn.key next

mutual

theorem mapStrings_mapStrings (key : Option Text) : ∀ value : Json,
    mapStrings f key (mapStrings g key value) = mapStrings (fun k s => f k (g k s)) key value
  | .null | .bool _ | .num _ | .str _ => rfl
  | .arr items => congrArg Json.arr (mapItems_mapItems items)
  | .obj fields => congrArg Json.obj (mapFields_mapFields fields)

theorem mapItems_mapItems : ∀ items : List Json,
    mapItems f (mapItems g items) = mapItems (fun k s => f k (g k s)) items
  | [] => rfl
  | item::rest => by
    rw [mapItems, mapItems, mapItems, mapStrings_mapStrings none item, mapItems_mapItems rest]

theorem mapFields_mapFields : ∀ fields : List (Text × Json),
    mapFields f (mapFields g fields) = mapFields (fun k s => f k (g k s)) fields
  | [] => rfl
  | (key, value)::rest => by
    rw [mapFields, mapFields, mapFields, mapStrings_mapStrings (some key) value,
      mapFields_mapFields rest]

end

theorem shape_mapStrings (value : Json) : shape (mapStrings f none value) = shape value :=
  mapStrings_mapStrings none value

mutual

theorem mapStrings_fixed (key : Option Text) : ∀ value : Json,
    (∀ p s, valueAt p value = some (.str s) → f (keyAt key p) s = s) → mapStrings f key value = value
  | .null, _ | .bool _, _ | .num _, _ => rfl
  | .str s, h => congrArg Json.str (h [] s rfl)
  | .arr items, h => by
    rw [mapStrings, mapItems_fixed items]
    intro n item hitem p s hs
    apply h (.item n :: p) s
    rw [valueAt, follow, hitem]
    exact hs
  | .obj fields, h => by
    rw [mapStrings, mapFields_fixed fields]
    intro n key value hfield p s hs
    apply h (.member n key :: p) s
    rw [valueAt, follow, hfield]
    simpa using hs

theorem mapItems_fixed : ∀ items : List Json,
    (∀ (n : ℕ) item, items[n]? = some item →
      ∀ p s, valueAt p item = some (.str s) → f (keyAt none p) s = s) → mapItems f items = items
  | [], _ => rfl
  | item::rest, h => by
    rw [mapItems, mapStrings_fixed none item (h 0 item rfl), mapItems_fixed rest]
    intro n next hnext
    exact h (n+1) next hnext

theorem mapFields_fixed : ∀ fields : List (Text × Json),
    (∀ (n : ℕ) key value, fields[n]? = some (key, value) →
      ∀ p s, valueAt p value = some (.str s) → f (keyAt (some key) p) s = s) →
        mapFields f fields = fields
  | [], _ => rfl
  | (key, value)::rest, h => by
    rw [mapFields, mapStrings_fixed (some key) value (h 0 key value rfl), mapFields_fixed rest]
    intro n next inner hnext
    exact h (n+1) next inner hnext

end

theorem mapStrings_eq_self {key : Option Text} {value : Json} : mapStrings f key value = value ↔
    ∀ p s, valueAt p value = some (.str s) → f (keyAt key p) s = s := by
  constructor
  · intro h p s hs
    have hmapped := valueAt_mapStrings (f := f) p key value
    rw [h, hs, Option.map_some, Option.some.injEq, mapStrings, Json.str.injEq] at hmapped
    exact hmapped.symm
  · exact mapStrings_fixed key value

end Mapping

end Foundation.JsonText
