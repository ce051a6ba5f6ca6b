import FaninMcp.Foundation.JsonRoundTrip

/-!
# JSON text with indentation

The items of an array and the fields of an object stand on lines of their own,
indented by two spaces for each level. An empty array or object stays on its
line. The decoder skips what was added.
-/

set_option autoImplicit false

namespace Foundation.JsonText
open Foundation.RustText

def newline (depth : ℕ) : Text := '\n' :: List.replicate (2*depth) ' '

mutual

def renderPretty (depth : ℕ) : Json → Text
  | .arr (item::rest) =>
    '[' :: newline (depth+1) ++ renderPretty (depth+1) item ++ prettyItems depth rest
  | .obj ((key, value)::rest) =>
    '{' :: newline (depth+1) ++ quote key ++ ':' :: ' ' :: renderPretty (depth+1) value ++
      prettyFields depth rest
  | json => render json

def prettyItems (depth : ℕ) : List Json → Text
  | [] => newline depth ++ [']']
  | item::rest => ',' :: newline (depth+1) ++ renderPretty (depth+1) item ++ prettyItems depth rest

def prettyFields (depth : ℕ) : List (Text × Json) → Text
  | [] => newline depth ++ ['}']
  | (key, value)::rest =>
    ',' :: newline (depth+1) ++ quote key ++ ':' :: ' ' :: renderPretty (depth+1) value ++
      prettyFields depth rest

end

section Spaces
variable {fuel depth : ℕ} {text : Text}

theorem skipSpace_newline : skipSpace (newline depth ++ text) = skipSpace text := by
  have hspace : ∀ c ∈ newline depth, isJsonSpace c = true := by
    intro c hc
    rcases List.mem_cons.mp hc with rfl | hc
    · decide
    · rw [List.eq_of_mem_replicate hc]
      decide
  exact List.dropWhile_append_of_pos hspace

@[simp] theorem expect_newline {c : Char} : expect c (newline depth ++ text) = expect c text := by
  rw [expect, skipSpace_newline, expect]

@[simp] theorem value_newline : value fuel (newline depth ++ text) = value fuel text := by
  cases fuel with
  | zero => rfl
  | succ fuel => rw [value, skipSpace_newline, value]

@[simp] theorem value_space : value fuel (' '::text) = value fuel text := by
  cases fuel with
  | zero => rfl
  | succ fuel =>
    have h : skipSpace (' '::text) = skipSpace text := rfl
    rw [value, h, value]

@[simp] theorem items_newline : items fuel (newline depth ++ text) = items fuel text := by
  cases fuel with
  | zero => rfl
  | succ fuel => rw [items, value_newline, items]

@[simp] theorem members_newline : members fuel (newline depth ++ text) = members fuel text := by
  cases fuel with
  | zero => rfl
  | succ fuel => rw [members, expect_newline, members]

end Spaces

section RoundTrip

theorem renderPretty_head (depth : ℕ) (json : Json) : ∃ c cs, renderPretty depth json = c::cs ∧
    isJsonSpace c = false ∧ c ≠ ']' ∧ c ≠ '}' := by
  fun_cases renderPretty depth json with
  | case1 item rest => exact ⟨'[', _, rfl, by decide, by decide, by decide⟩
  | case2 key value rest => exact ⟨'\x7b', _, rfl, by decide, by decide, by decide⟩
  | case3 => exact render_head json

/-- This much fuel reads back any indented text it is enough for. -/
structure ReadsPretty (fuel : ℕ) : Prop where
  value : ∀ depth json rest, 2*(renderPretty depth json).length ≤ fuel → Stops rest →
    value fuel (renderPretty depth json ++ rest) = some (json, rest)
  items : ∀ depth item more rest,
    2*((renderPretty (depth+1) item).length + (prettyItems depth more).length) + 1 ≤ fuel →
    items fuel (renderPretty (depth+1) item ++ (prettyItems depth more ++ rest)) =
      some (item::more, rest)
  members : ∀ depth key item more rest,
    2*((quote key).length + (renderPretty (depth+1) item).length +
      (prettyFields depth more).length) + 1 ≤ fuel →
    members fuel (quote key ++ ':' :: ' ' :: (renderPretty (depth+1) item ++
      (prettyFields depth more ++ rest))) = some ((key, item)::more, rest)

variable {fuel : ℕ}

theorem value_pretty (ih : ReadsPretty fuel) {depth : ℕ} {json : Json} {rest : Text}
    (hf : 2*(renderPretty depth json).length ≤ fuel+1) (hs : Stops rest) :
    value (fuel+1) (renderPretty depth json ++ rest) = some (json, rest) := by
  fun_cases renderPretty depth json with
  | case1 item more =>
    rw [renderPretty] at hf
    simp only [List.cons_append, List.append_assoc, List.length_cons, List.length_append] at hf ⊢
    rw [value, skipSpace_cons (by decide)]
    obtain ⟨d, ds, hd, hspace, hne, _⟩ := renderPretty_head (depth+1) item
    have hnone : expect ']' (newline (depth+1) ++ (renderPretty (depth+1) item ++
        (prettyItems depth more ++ rest))) = none := by
      rw [expect_newline, hd]
      exact expect_other hspace hne _
    simp [hnone, ih.items depth item more rest (by omega)]
  | case2 key item more =>
    rw [renderPretty] at hf
    simp only [List.cons_append, List.append_assoc, List.length_cons, List.length_append] at hf ⊢
    rw [value, skipSpace_cons (by decide)]
    have hnone : expect '}' (newline (depth+1) ++ (quote key ++ ':' :: ' ' ::
        (renderPretty (depth+1) item ++ (prettyFields depth more ++ rest)))) = none := by
      rw [expect_newline, quote_append]
      exact expect_other (by decide) (by decide) _
    simp [hnone, ih.members depth key item more rest (by omega)]
  | case3 _ harr hobj =>
    have hrender : renderPretty depth json = render json := by
      rw [renderPretty]
      · exact harr
      · exact hobj
    rw [hrender] at hf
    exact (readsBack (fuel+1)).value json rest hf hs

theorem stops_prettyItems (depth : ℕ) (more : List Json) (rest : Text) :
    Stops (prettyItems depth more ++ rest) := by
  cases more with
  | nil => exact stops_cons (show isNumberChar '\n' = false by decide) _
  | cons item more => exact stops_cons (show isNumberChar ',' = false by decide) _

theorem stops_prettyFields (depth : ℕ) (more : JsonObject) (rest : Text) :
    Stops (prettyFields depth more ++ rest) := by
  cases more with
  | nil => exact stops_cons (show isNumberChar '\n' = false by decide) _
  | cons field more => exact stops_cons (show isNumberChar ',' = false by decide) _

theorem items_pretty (ih : ReadsPretty fuel) {depth : ℕ} {item : Json} {more : List Json}
    {rest : Text}
    (hf : 2*((renderPretty (depth+1) item).length + (prettyItems depth more).length) + 1 ≤ fuel+1) :
    items (fuel+1) (renderPretty (depth+1) item ++ (prettyItems depth more ++ rest)) =
      some (item::more, rest) := by
  have hread := ih.value (depth+1) item (prettyItems depth more ++ rest) (by omega)
    (stops_prettyItems depth more rest)
  rw [items, hread]
  cases more with
  | nil =>
    simp [prettyItems, expect_same (show isJsonSpace ']' = false by decide),
      expect_other (show isJsonSpace ']' = false by decide) (show ']' ≠ ',' by decide)]
  | cons next more =>
    simp only [prettyItems, List.cons_append, List.append_assoc, List.length_cons,
      List.length_append] at hf ⊢
    have hmore := ih.items depth next more rest (by omega)
    simp [hmore, expect_same (show isJsonSpace ',' = false by decide)]

theorem members_pretty (ih : ReadsPretty fuel) {depth : ℕ} {key : Text} {item : Json}
    {more : JsonObject} {rest : Text}
    (hf : 2*((quote key).length + (renderPretty (depth+1) item).length +
      (prettyFields depth more).length) + 1 ≤ fuel+1) :
    members (fuel+1) (quote key ++ ':' :: ' ' :: (renderPretty (depth+1) item ++
      (prettyFields depth more ++ rest))) = some ((key, item)::more, rest) := by
  have hread := ih.value (depth+1) item (prettyFields depth more ++ rest) (by omega)
    (stops_prettyFields depth more rest)
  have hcolon : (expect ':' (':' :: ' ' :: (renderPretty (depth+1) item ++
      (prettyFields depth more ++ rest)))).bind (value fuel) =
      some (item, prettyFields depth more ++ rest) := by
    rw [expect_same (by decide), Option.bind_some, value_space, hread]
  rw [members, key_read]
  dsimp only
  rw [hcolon]
  cases more with
  | nil =>
    simp [prettyFields, expect_same (show isJsonSpace '\x7d' = false by decide),
      expect_other (show isJsonSpace '\x7d' = false by decide) (show '\x7d' ≠ ',' by decide)]
  | cons next more =>
    obtain ⟨nextKey, next⟩ := next
    simp only [prettyFields, List.cons_append, List.append_assoc, List.length_cons,
      List.length_append] at hf ⊢
    have hmore := ih.members depth nextKey next more rest (by omega)
    simp [hmore, expect_same (show isJsonSpace ',' = false by decide)]

theorem readsPretty (fuel : ℕ) : ReadsPretty fuel := by
  induction fuel with
  | zero =>
    refine ⟨fun depth json _ h _ => ?_, fun _ _ _ _ h => by omega, fun _ _ _ _ _ h => by omega⟩
    obtain ⟨c, cs, hhead, _⟩ := renderPretty_head depth json
    rw [hhead, List.length_cons] at h
    omega
  | succ fuel ih =>
    exact ⟨fun _ _ _ h hs => value_pretty ih h hs, fun _ _ _ _ h => items_pretty ih h,
      fun _ _ _ _ _ h => members_pretty ih h⟩

theorem parse_pretty (depth : ℕ) (json : Json) : parse (renderPretty depth json) = some json := by
  have hread := (readsPretty (2*(renderPretty depth json).length + 1)).value depth json [] (by omega)
    (fun c cs h => by cases h)
  rw [List.append_nil] at hread
  rw [parse, hread]
  rfl

end RoundTrip

end Foundation.JsonText
