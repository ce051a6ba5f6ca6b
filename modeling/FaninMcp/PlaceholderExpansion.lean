import FaninMcp.Redaction
import FaninMcp.RegistryProtocol
import FaninMcp.Foundation.SequentialRuns

/-!
# What a raw value expands to

A raw value is read from left to right: `${`, a name up to the first `}`, and
everything else as it stands. The scanner that resolves placeholders performs,
one piece after the other, what the pieces of the value ask for.
-/

set_option autoImplicit false

namespace FaninMcp.PlaceholderExpansion
open Foundation.RustText Foundation.AsyncPrograms FaninMcp.ErrorModel FaninMcp.RegistryModel
  FaninMcp.Redaction

section Grammar

inductive Piece where
  | verbatim (text : Text)
  | placeholder (name : Text)

def opening : Text := "$\x7b".toList

def closing : Text := "\x7d".toList

/-- The first `${`, and the first `}` behind it: what stands before, between
and after them. -/
def firstBraces (raw : Text) : Option (Text × Text × Text) :=
  (splitOnce opening raw).bind fun parts =>
    (splitOnce closing parts.2).map fun inner => (parts.1, inner.1, inner.2)

theorem firstBraces_source {raw before name after : Text}
    (h : firstBraces raw = some (before, name, after)) :
    raw = before ++ opening ++ name ++ closing ++ after := by
  obtain ⟨⟨_, rest⟩, hopen, h⟩ := Option.bind_eq_some_iff.mp h
  obtain ⟨⟨_, _⟩, hclose, heq⟩ := Option.map_eq_some_iff.mp h
  cases heq
  have hrest : rest = _ := splitOnce_some hclose
  rw [splitOnce_some hopen, hrest]
  simp

theorem firstBraces_skip {c : Char} {cs : Text} (h : ¬ opening <+: c::cs) :
    firstBraces (c::cs) = (firstBraces cs).map fun parts => (c::parts.1, parts.2) := by
  have hp : opening.isPrefixOf (c::cs) = false := by
    rw [← Bool.not_eq_true, List.isPrefixOf_iff_prefix]
    exact h
  have hsplit : splitOnce opening (c::cs) =
      (splitOnce opening cs).map fun parts => (c::parts.1, parts.2) := by
    rw [splitOnce, hp]
    rfl
  rw [firstBraces, firstBraces, hsplit]
  cases splitOnce opening cs with
  | none => rfl
  | some parts =>
    simp only [Option.map_some, Option.bind_some, Option.map_map]
    rfl

theorem firstBraces_opening (rest : Text) :
    firstBraces (opening ++ rest) = (splitOnce closing rest).map fun inner => ([], inner) := by
  have hsplit : splitOnce opening (opening ++ rest) = some ([], rest) :=
    splitOnce_append [] rest (List.not_mem_nil)
  rw [firstBraces, hsplit]
  rfl

theorem splitOnce_closing_none {name : Text} (h : '\x7d' ∉ name) :
    splitOnce closing name = none := by
  cases hsplit : splitOnce closing name with
  | none => rfl
  | some parts =>
    rw [splitOnce_some hsplit] at h
    exact absurd (by simp [closing]) h

theorem splitOnce_closing {name : Text} (h : '\x7d' ∉ name) (rest : Text) :
    splitOnce closing (name ++ '\x7d'::rest) = some (name, rest) := by
  have happend := @splitOnce_append '\x7d' [] name rest h
  simpa [closing] using happend

theorem firstBraces_closed {name : Text} (h : '\x7d' ∉ name) (rest : Text) :
    firstBraces (opening ++ (name ++ '\x7d'::rest)) = some ([], name, rest) := by
  rw [firstBraces_opening, splitOnce_closing h]
  rfl

/-- Braces around nothing, and an opening that is never closed, stand for
themselves. -/
def pieces (raw : Text) : List Piece :=
  match _h : firstBraces raw with
  | none => [.verbatim raw]
  | some (before, name, after) =>
    .verbatim before ::
      (if name = [] then .verbatim (opening ++ closing) else .placeholder name) :: pieces after
termination_by raw.length
decreasing_by
  rw [firstBraces_source _h]
  simp [opening]
  omega

def Piece.source : Piece → Text
  | .verbatim text => text
  | .placeholder name => opening ++ name ++ closing

def Piece.name? : Piece → Option Text
  | .verbatim _ => none
  | .placeholder name => some name

def names (raw : Text) : List Text := (pieces raw).filterMap Piece.name?

theorem pieces_plain {raw : Text} (h : firstBraces raw = none) : pieces raw = [.verbatim raw] := by
  rw [pieces]
  split <;> simp_all

theorem pieces_braces {raw before name after : Text}
    (h : firstBraces raw = some (before, name, after)) :
    pieces raw = .verbatim before ::
      (if name = [] then .verbatim (opening ++ closing) else .placeholder name) ::
        pieces after := by
  rw [pieces]
  split <;> simp_all

theorem pieces_source (raw : Text) : (pieces raw).flatMap Piece.source = raw := by
  fun_induction pieces raw with
  | case1 raw h => simp [Piece.source]
  | case2 raw before name after h ih =>
    rw [List.flatMap_cons, List.flatMap_cons, ih, firstBraces_source h]
    by_cases hname : name = [] <;> simp [hname, Piece.source]

end Grammar

section Scanner

def lookUp (server name : Text) : RegistryProg (Option Text) := do
  let preferred : Option Text ← (do
    match ← doing (.storeGet server name) with
    | .ok found => return found
    | .error _ => return none)
  match preferred with
  | some value => return some value
  | none => doing (.envVar name)

/-- The pieces in turn; `result` is the text so far. -/
def expand (server : Text) : Text → List Piece → RegistryProg (Outcome Text)
  | result, [] => return .ok result
  | result, .verbatim text :: rest => expand server (result ++ text) rest
  | result, .placeholder name :: rest => do
    match ← lookUp server name with
    | none => return .error (.credentialResolution server name)
    | some value => do
      doing (.registerSecret value)
      expand server (result ++ value) rest

def pending : ScanMode → Text
  | .literal => []
  | .variable name => opening ++ name

theorem expand_plain (server result raw : Text) (h : firstBraces raw = none) :
    expand server result (pieces raw) = return .ok (result ++ raw) := by
  rw [pieces_plain h]
  rfl

theorem expand_skip (server result : Text) {c : Char} {cs : Text} (h : ¬ opening <+: c::cs) :
    expand server result (pieces (c::cs)) = expand server (result ++ [c]) (pieces cs) := by
  have hskip := firstBraces_skip h
  cases hcs : firstBraces cs with
  | none =>
    rw [hcs] at hskip
    rw [expand_plain _ _ _ hcs, expand_plain _ _ _ hskip]
    simp
  | some parts =>
    rw [hcs] at hskip
    have hparts : firstBraces cs = some (parts.1, parts.2.1, parts.2.2) := hcs
    rw [pieces_braces hskip, pieces_braces hparts]
    simp [expand]

theorem resolveFrom_expand (server : Text) (mode : ScanMode) (result raw : Text)
    (h : '\x7d' ∉ pending mode) :
    resolveFrom server mode result raw = expand server result (pieces (pending mode ++ raw)) := by
  fun_induction resolveFrom server mode result raw with
  | case1 result => simp [pending, expand_plain server result [] rfl]
  | case2 result rest ih => exact ih (by decide)
  | case3 result c rest hopen ih =>
    rw [ih h]
    refine (expand_skip server result ?_).symm
    rintro ⟨after, heq⟩
    obtain ⟨rfl, rfl⟩ := List.cons.inj heq
    exact hopen after rfl rfl
  | case4 name result =>
    have hname : '\x7d' ∉ name := fun hin => h (List.mem_append_right opening hin)
    have hfirst : firstBraces (opening ++ name) = none := by
      rw [firstBraces_opening, splitOnce_closing_none hname]
      rfl
    rw [pending, List.append_nil, expand_plain _ _ _ hfirst, List.append_assoc]
    rfl
  | case5 name result rest hempty ih =>
    obtain rfl := List.isEmpty_iff.mp hempty
    have hsame : pending (.variable []) ++ '\x7d'::rest = opening ++ ([] ++ '\x7d'::rest) := rfl
    rw [ih (by decide), hsame, pieces_braces (firstBraces_closed List.not_mem_nil rest)]
    simp [expand, pending, opening, closing]
  | case6 name result rest hname ih =>
    have hclosed : '\x7d' ∉ name := fun hin => h (List.mem_append_right opening hin)
    rw [pending, List.append_assoc, pieces_braces (firstBraces_closed hclosed rest)]
    rw [if_neg (by simpa using hname)]
    have hfound : ∀ value, (do
        doing (.registerSecret value)
        resolveFrom server .literal (result ++ value) rest : RegistryProg (Outcome Text)) = (do
          doing (.registerSecret value)
          expand server (result ++ [] ++ value) (pieces rest)) := by
      intro value
      rw [ih value (by decide), List.append_nil]
      rfl
    refine congrArg (Prog.act _) (funext fun preferred => ?_)
    rcases preferred with e | (_ | value)
    · refine congrArg (Prog.act _) (funext fun found => ?_)
      cases found with
      | none => rfl
      | some value => exact hfound value
    · refine congrArg (Prog.act _) (funext fun found => ?_)
      cases found with
      | none => rfl
      | some value => exact hfound value
    · exact hfound value
  | case7 name result c rest hc ih =>
    have hgrown : '\x7d' ∉ pending (.variable (name ++ [c])) := by
      simpa [pending, Ne.symm hc] using h
    rw [ih hgrown]
    simp [pending]

theorem contains_iff {pat text : Text} : contains pat text = true ↔ pat <:+: text := by
  induction text with
  | nil => simp [contains]
  | cons c rest ih => simp [contains, ih, List.infix_cons_iff]

theorem resolveEnvValue_expand (server raw : Text) :
    resolveEnvValue server raw = expand server [] (pieces raw) := by
  rw [resolveEnvValue]
  split_ifs with hplain
  · have hfirst : firstBraces raw = none := by
      cases hopen : splitOnce opening raw with
      | none => simp [firstBraces, hopen]
      | some parts =>
        have hin : opening <:+: raw := ⟨parts.1, parts.2, (splitOnce_some hopen).symm⟩
        rw [show contains "$\x7b".toList raw = true from contains_iff.mpr hin] at hplain
        exact absurd hplain (by decide)
    exact (expand_plain server [] raw hfirst).symm
  · exact resolveFrom_expand server .literal [] raw (by decide)

end Scanner

section Surroundings
variable (store : Text → Text → Except Text (Option Text)) (env : Text → Option Text)

/-- Store and environment answer as they stand, and a registered value joins the secrets. -/
def surroundings : Semantics registryOps SecretSet := fun secrets op =>
  match op with
  | .storeGet server key => fun found secrets' => found = store server key ∧ secrets' = secrets
  | .envVar key => fun found secrets' => found = env key ∧ secrets' = secrets
  | .registerSecret value => fun _ secrets' => secrets' = secrets.registerSecret value
  | _ => fun _ _ => False

/-- The store first; without a value in it, or when it fails, the environment. -/
def resolution (server name : Text) : Option Text :=
  match store server name with
  | .ok (some value) => some value
  | _ => env name

theorem mem_registerSecret {secrets : SecretSet} {value v : Text} :
    v ∈ (secrets.registerSecret value).values ↔ v ∈ secrets.values ∨ v ≠ [] ∧ v = value := by
  rw [SecretSet.registerSecret]
  split_ifs with h
  · simp [h]
  · rw [Finset.mem_insert]
    constructor
    · rintro (rfl | hv)
      · exact Or.inr ⟨h, rfl⟩
      · exact Or.inl hv
    · rintro (hv | ⟨_, rfl⟩)
      · exact Or.inr hv
      · exact Or.inl rfl

theorem lookUp_runs {server name : Text} {secrets secrets' : SecretSet} {found : Option Text} :
    (∃ t, Runs (surroundings store env) (lookUp server name) secrets t found secrets') ↔
      found = resolution store env server name ∧ secrets' = secrets := by
  have henv : (∃ t, Runs (surroundings store env) (doing (.envVar name)) secrets t found secrets') ↔
      found = env name ∧ secrets' = secrets :=
    (exists_runs_answered (env name) secrets fun _ _ => Iff.rfl).trans exists_runs_done
  refine (exists_runs_answered (store server name) secrets fun _ _ => Iff.rfl).trans ?_
  rw [resolution]
  rcases store server name with e | (_ | value)
  · exact henv
  · exact henv
  · exact exists_runs_done

def meaning (server : Text) : SecretSet → Text → List Piece → Outcome Text × SecretSet
  | secrets, result, [] => (.ok result, secrets)
  | secrets, result, .verbatim text :: rest => meaning server secrets (result ++ text) rest
  | secrets, result, .placeholder name :: rest =>
    match resolution store env server name with
    | none => (.error (.credentialResolution server name), secrets)
    | some value => meaning server (secrets.registerSecret value) (result ++ value) rest

theorem expand_runs {server result : Text} {ps : List Piece} {secrets secrets' : SecretSet}
    {out : Outcome Text} :
    (∃ t, Runs (surroundings store env) (expand server result ps) secrets t out secrets') ↔
      (out, secrets') = meaning store env server secrets result ps := by
  induction ps generalizing result secrets with
  | nil => simp [expand, meaning]
  | cons piece rest ih =>
    cases piece with
    | verbatim text => exact ih
    | placeholder name =>
      rw [expand, meaning, exists_runs_bind]
      simp only [lookUp_runs, and_assoc, exists_and_left, exists_eq_left]
      cases resolution store env server name with
      | none => simp
      | some value =>
        refine Iff.trans (exists_runs_answered () (secrets.registerSecret value) fun _ _ => ?_) ?_
        · exact ⟨fun h => ⟨rfl, h⟩, And.right⟩
        · exact ih

end Surroundings

section Verdict
variable (value : Text → Option Text)

def Piece.expansion : Piece → Text
  | .verbatim text => text
  | .placeholder name => (value name).getD []

/-- The name is looked up: every name in front of it has a value. -/
def Reached (names : List Text) (name : Text) : Prop :=
  ∃ before after, names = before ++ name::after ∧ ∀ n ∈ before, value n ≠ none

variable {value}

theorem reached_cons {first name : Text} {names : List Text} :
    Reached value (first::names) name ↔
      name = first ∨ value first ≠ none ∧ Reached value names name := by
  constructor
  · rintro ⟨before, after, heq, h⟩
    cases before with
    | nil => exact Or.inl (List.cons.inj heq).1.symm
    | cons n before =>
      obtain ⟨rfl, hrest⟩ := List.cons.inj heq
      exact Or.inr ⟨h first (by simp), before, after, hrest, fun n hn => h n (by simp [hn])⟩
  · rintro (rfl | ⟨hfirst, before, after, rfl, h⟩)
    · exact ⟨[], names, rfl, by simp⟩
    · exact ⟨first::before, after, rfl, by simpa [hfirst] using h⟩

theorem reached_nil {name : Text} : ¬ Reached value [] name := by
  rintro ⟨before, after, heq, _⟩
  simp at heq

end Verdict

section Meaning
variable {store : Text → Text → Except Text (Option Text)} {env : Text → Option Text}
  {server : Text}

theorem meaning_ok {ps : List Piece} {secrets : SecretSet} {result text : Text} :
    (meaning store env server secrets result ps).1 = .ok text ↔
      (∀ name ∈ ps.filterMap Piece.name?, resolution store env server name ≠ none) ∧
        text = result ++ ps.flatMap (Piece.expansion (resolution store env server)) := by
  induction ps generalizing secrets result with
  | nil => simp [meaning, eq_comm]
  | cons piece rest ih =>
    cases piece with
    | verbatim part => simp [meaning, ih, Piece.name?, Piece.expansion]
    | placeholder name =>
      cases hvalue : resolution store env server name with
      | none => simp [meaning, hvalue, Piece.name?]
      | some value => simp [meaning, hvalue, ih, Piece.name?, Piece.expansion]

theorem meaning_error {ps : List Piece} {secrets : SecretSet} {result : Text} {e : ToolError} :
    (meaning store env server secrets result ps).1 = .error e ↔
      ∃ name, Reached (resolution store env server) (ps.filterMap Piece.name?) name ∧
        resolution store env server name = none ∧ e = .credentialResolution server name := by
  induction ps generalizing secrets result with
  | nil => simp [meaning, reached_nil]
  | cons piece rest ih =>
    cases piece with
    | verbatim part => exact ih
    | placeholder name =>
      cases hvalue : resolution store env server name with
      | none => simp [meaning, hvalue, Piece.name?, reached_cons, eq_comm]
      | some value => simp [meaning, hvalue, ih, Piece.name?, reached_cons]

theorem meaning_secrets {ps : List Piece} {secrets : SecretSet} {result v : Text} :
    v ∈ (meaning store env server secrets result ps).2.values ↔ v ∈ secrets.values ∨
      v ≠ [] ∧ ∃ name, Reached (resolution store env server) (ps.filterMap Piece.name?) name ∧
        resolution store env server name = some v := by
  induction ps generalizing secrets result with
  | nil => simp [meaning, reached_nil]
  | cons piece rest ih =>
    cases piece with
    | verbatim part => exact ih
    | placeholder name =>
      cases hvalue : resolution store env server name with
      | none => simp [meaning, hvalue, Piece.name?, reached_cons]
      | some value =>
        have hreached : (∃ n, Reached (resolution store env server)
            ((Piece.placeholder name::rest).filterMap Piece.name?) n ∧
              resolution store env server n = some v) ↔ v = value ∨
            ∃ n, Reached (resolution store env server) (rest.filterMap Piece.name?) n ∧
              resolution store env server n = some v := by
          simp [Piece.name?, reached_cons, or_and_right, exists_or, hvalue, eq_comm]
        simp only [meaning, hvalue, ih, mem_registerSecret, hreached]
        tauto

end Meaning

/-- Every run ends, in the one way the pieces of the value allow. The value of
every placeholder is put in its place as it is, the first one without a value
is named by the error, and every value found is registered by then, unless it
is empty. -/
theorem resolveEnvValue_meets_grammar (store : Text → Text → Except Text (Option Text))
    (env : Text → Option Text) (server raw : Text) (secrets : SecretSet) :
    (∃ t out secrets', Runs (surroundings store env) (resolveEnvValue server raw) secrets t out
      secrets') ∧
    (∀ t out secrets', Runs (surroundings store env) (resolveEnvValue server raw) secrets t out
        secrets' →
      (∀ text, out = .ok text ↔
        (∀ name ∈ names raw, resolution store env server name ≠ none) ∧
          text = (pieces raw).flatMap (Piece.expansion (resolution store env server))) ∧
      (∀ e, out = .error e ↔
        ∃ name, Reached (resolution store env server) (names raw) name ∧
          resolution store env server name = none ∧ e = .credentialResolution server name) ∧
      (∀ v, v ∈ secrets'.values ↔ v ∈ secrets.values ∨
        v ≠ [] ∧ ∃ name, Reached (resolution store env server) (names raw) name ∧
          resolution store env server name = some v)) ∧
    resolveFrom server .literal [] raw = resolveEnvValue server raw := by
  have hruns : ∀ out secrets', (∃ t, Runs (surroundings store env) (resolveEnvValue server raw)
      secrets t out secrets') ↔
        (out, secrets') = meaning store env server secrets [] (pieces raw) := by
    intro out secrets'
    rw [resolveEnvValue_expand, expand_runs]
  refine ⟨?_, fun t out secrets' h => ?_, ?_⟩
  · obtain ⟨t, ht⟩ := (hruns _ _).mpr rfl
    exact ⟨t, _, _, ht⟩
  · have heq := (hruns out secrets').mp ⟨t, h⟩
    obtain ⟨rfl, rfl⟩ := Prod.mk.inj heq
    exact ⟨fun text => meaning_ok, fun e => meaning_error, fun v => meaning_secrets⟩
  · rw [resolveEnvValue_expand, resolveFrom_expand server .literal [] raw (by decide)]
    rfl

end FaninMcp.PlaceholderExpansion
