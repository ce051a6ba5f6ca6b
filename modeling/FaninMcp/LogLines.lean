import FaninMcp.Foundation.JsonRewriting
import FaninMcp.Foundation.TextTiling
import FaninMcp.StructuredLog

/-!
# The lines of the structured log

Every event appends its line to the file, after one replacement for each secret
registered by then. As long as these find their secrets in the content of string
literals, each line stays one JSON object; a secret found in a number, in
punctuation or in half an escape makes the line unreadable.
-/

set_option autoImplicit false

namespace FaninMcp.LogLines
open Foundation.RustText Foundation.JsonText Foundation.LossyUtf8 Foundation.TextTiling
open Redaction StructuredLog

/-- An event, with the secrets registered when it is written as they are iterated. -/
structure Logged where
  secrets : SecretSet
  order : List Text
  iteration : IterationOf order secrets.values
  event : Event

section File
variable (fromStr : Text → Option Json)

def append (file : Bytes) (log : Logged) : Bytes :=
  file ++ fileWrite log.order (utf8 (formatEvent fromStr log.event))

def logFile (logs : List Logged) : Bytes := logs.foldl (append fromStr) []

end File

/-- The file consists of this many lines, each of them one JSON object. -/
def Ndjson (file : Bytes) (count : ℕ) : Prop :=
  ∃ lines : List Text, lines.length = count ∧
    (∀ line ∈ lines, '\n' ∉ line ∧ ∃ fields, parse line = some (.obj fields)) ∧
    file = utf8 (lines.flatMap fun line => line ++ ['\n'])

/-- Every pass of the redaction finds its secret in the text it starts from only
as a whole piece of the content of a string literal. -/
def InStrings : List Text → Text → Prop
  | [], _ => True
  | secret::order, text => Inside secret .outside text ∧ InStrings order (replace secret marker text)

def inStrings : List Text → Text → Bool
  | [], _ => true
  | secret::order, text =>
    insideFrom secret 0 .outside text && inStrings order (replace secret marker text)

section Passes

theorem inStrings_iff {order : List Text} (hne : ∀ t ∈ order, t ≠ []) (text : Text) :
    inStrings order text = true ↔ InStrings order text := by
  induction order generalizing text with
  | nil => exact ⟨fun _ => trivial, fun _ => rfl⟩
  | cons secret order ih =>
    rw [inStrings, Bool.and_eq_true, insideFrom_iff (hne secret (by simp)),
      ih fun t ht => hne t (by simp [ht])]
    rfl

theorem marker_whole : Whole marker := ⟨marker, (escape_verbatim marker_verbatim).symm⟩

/-- The marker begins with a bracket, which no escape goes on with, and a letter
no JSON keyword has. -/
theorem marker_breaks : BreaksOutside marker := by
  intro place hplace
  cases place with
  | outside => decide
  | content => exact absurd rfl hplace
  | escaped => decide
  | hex left => cases left <;> exact scan_broken "REDACTED]".toList
  | broken => exact scan_broken marker

theorem scan_line (fields : JsonObject) : scan .outside (render (.obj fields) ++ ['\n']) = .outside :=
  scan_parse (parse_render _ (List.all_eq_true.mp (by decide)))

theorem printed_line (fields : JsonObject) :
    Printed (render (.obj fields) ++ ['\n']) (strings (.obj fields)) := by
  have h := printed_render (.obj fields) (.outside (show '\n' ≠ '"' by decide) .nil)
  rwa [List.append_nil] at h

theorem replace_object {secret : Text} (hne : secret ≠ []) {fields : JsonObject}
    (h : Inside secret .outside (render (.obj fields) ++ ['\n'])) :
    ∃ fields', replace secret marker (render (.obj fields) ++ ['\n']) =
      render (.obj fields') ++ ['\n'] := by
  have hr := restrung_replace hne marker_whole (printed_line fields) (by simp [scan_line]) h
  obtain ⟨fields', b, heq, hb⟩ := restrung_object hr
  obtain ⟨c, rfl, hnil⟩ := restrung_strip ['\n'] (by decide) hb
  cases hnil
  exact ⟨fields', heq⟩

theorem redact_object {order : List Text} (hne : ∀ t ∈ order, t ≠ []) {fields : JsonObject}
    (h : InStrings order (render (.obj fields) ++ ['\n'])) :
    ∃ fields', redact order (render (.obj fields) ++ ['\n']) = render (.obj fields') ++ ['\n'] := by
  induction order generalizing fields with
  | nil => exact ⟨fields, rfl⟩
  | cons secret order ih =>
    have hs := hne secret (by simp)
    obtain ⟨fields', hpass⟩ := replace_object hs h.1
    have hrest := h.2
    rw [hpass] at hrest
    rw [redact_cons hs, hpass]
    exact ih (fun t ht => hne t (by simp [ht])) hrest

theorem redact_inside_or_broken {order : List Text} (hne : ∀ t ∈ order, t ≠ [])
    (hwhole : ∀ t ∈ order, Whole t) (text : Text) :
    InStrings order text ∧ scan .outside (redact order text) = scan .outside text ∨
      scan .outside (redact order text) = .broken := by
  induction order generalizing text with
  | nil => exact Or.inl ⟨trivial, rfl⟩
  | cons secret order ih =>
    have hs := hne secret (by simp)
    rw [redact_cons hs]
    have hpass := replace_inside_or_broken hs (hwhole secret (by simp)) marker_whole marker_breaks
      .outside text
    rcases ih (fun t ht => hne t (by simp [ht])) (fun t ht => hwhole t (by simp [ht]))
      (replace secret marker text) with ⟨hin, hscan⟩ | hbroken
    · rw [hscan]
      exact hpass.imp_left fun h => ⟨⟨h.1, hin⟩, h.2⟩
    · exact Or.inr hbroken

theorem newline_not_mem_whole {t : Text} (h : Whole t) : '\n' ∉ t := by
  obtain ⟨x, rfl⟩ := h
  intro hin
  exact absurd (escape_printable hin) (by decide)

theorem newline_not_mem_redact {order : List Text} (hne : ∀ t ∈ order, t ≠ [])
    (hwhole : ∀ t ∈ order, Whole t) {text : Text} (h : '\n' ∉ text) : '\n' ∉ redact order text := by
  induction order generalizing text with
  | nil => exact h
  | cons secret order ih =>
    have hs := hne secret (by simp)
    rw [redact_cons hs]
    apply ih (fun t ht => hne t (by simp [ht])) (fun t ht => hwhole t (by simp [ht]))
    rwa [mem_replace_iff hs (newline_not_mem_whole (hwhole secret (by simp))) (by decide)]

theorem redact_line {order : List Text} (hne : ∀ t ∈ order, t ≠ []) (hwhole : ∀ t ∈ order, Whole t)
    (text : Text) : redact order (text ++ ['\n']) = redact order text ++ ['\n'] := by
  have h := redact_context (p := []) (q := ['\n']) hne (by simp) (fun c hc t ht => by
    obtain rfl := List.mem_singleton.mp hc
    exact newline_not_mem_whole (hwhole t ht)) text
  simpa using h

end Passes

section Files
variable {fromStr : Text → Option Json}

theorem Logged.ne_nil (log : Logged) : ∀ t ∈ log.order, t ≠ [] := fun t ht =>
  secret_ne_nil ((log.iteration.mem t).mp ht)

theorem append_eq (file : Bytes) (log : Logged) :
    append fromStr file log = file ++ utf8 (redact log.order (formatEvent fromStr log.event)) := by
  simp [append, fileWrite, fromUtf8_utf8]

theorem ndjson_append {file : Bytes} {count : ℕ} (h : Ndjson file count) {log : Logged}
    (hin : InStrings log.order (formatEvent fromStr log.event)) :
    Ndjson (append fromStr file log) (count+1) := by
  obtain ⟨lines, hlen, hlines, rfl⟩ := h
  obtain ⟨fields, hline⟩ := redact_object log.ne_nil hin
  refine ⟨lines ++ [render (.obj fields)], by simp [hlen], ?_, ?_⟩
  · intro line hmem
    rcases List.mem_append.mp hmem with hmem | hmem
    · exact hlines line hmem
    · obtain rfl := List.mem_singleton.mp hmem
      exact ⟨newline_not_mem_render _, fields, parse_rendered (.obj fields)⟩
  · rw [append_eq, formatEvent, hline]
    simp

theorem ndjson_run {file : Bytes} {count : ℕ} (h : Ndjson file count) {logs : List Logged}
    (hin : ∀ log ∈ logs, InStrings log.order (formatEvent fromStr log.event)) :
    Ndjson (logs.foldl (append fromStr) file) (count + logs.length) := by
  induction logs generalizing file count with
  | nil => exact h
  | cons log logs ih =>
    have hstep := ndjson_append h (hin log (by simp))
    have hrun := ih hstep fun other hother => hin other (by simp [hother])
    rw [List.length_cons, Nat.add_comm logs.length, ← Nat.add_assoc]
    exact hrun

theorem lines_unique {lines outs : List Text} (hl : ∀ line ∈ lines, '\n' ∉ line)
    (ho : ∀ out ∈ outs, '\n' ∉ out)
    (h : (lines.flatMap fun line => line ++ ['\n']) = outs.flatMap fun out => out ++ ['\n']) :
    lines = outs := by
  induction lines generalizing outs with
  | nil =>
    cases outs with
    | nil => rfl
    | cons out outs => simp at h
  | cons line lines ih =>
    cases outs with
    | nil => simp at h
    | cons out outs =>
      rw [List.flatMap_cons, List.flatMap_cons] at h
      have hline : splitOnce ['\n'] _ = _ :=
        splitOnce_append line (lines.flatMap fun line => line ++ ['\n']) (hl line (by simp))
      rw [h, splitOnce_append _ _ (ho out (by simp))] at hline
      obtain ⟨rfl, hrest⟩ := Prod.mk.inj (Option.some.inj hline)
      have hlines := ih (fun l hmem => hl l (by simp [hmem])) (fun o hmem => ho o (by simp [hmem]))
        hrest.symm
      rw [hlines]

theorem logFile_text (logs : List Logged) (file : Bytes) : logs.foldl (append fromStr) file =
    file ++ utf8 (logs.flatMap fun log => redact log.order (formatEvent fromStr log.event)) := by
  induction logs generalizing file with
  | nil => simp
  | cons log logs ih =>
    rw [List.foldl_cons, ih, append_eq, List.flatMap_cons, utf8_append, List.append_assoc]

theorem scan_of_ndjson {logs : List Logged} (hwhole : ∀ log ∈ logs, ∀ t ∈ log.order, Whole t)
    {count : ℕ} (h : Ndjson (logFile fromStr logs) count) : ∀ log ∈ logs,
    scan .outside (redact log.order (formatEvent fromStr log.event)) = .outside := by
  obtain ⟨lines, _, hlines, hfile⟩ := h
  let out (log : Logged) : Text := redact log.order (render (.obj (eventObject fromStr log.event)))
  have hout : ∀ log ∈ logs, redact log.order (formatEvent fromStr log.event) = out log ++ ['\n'] :=
    fun log hlog => redact_line log.ne_nil (hwhole log hlog) _
  have houts : ∀ text ∈ logs.map out, '\n' ∉ text := by
    intro text hmem
    obtain ⟨log, hlog, rfl⟩ := List.mem_map.mp hmem
    exact newline_not_mem_redact log.ne_nil (hwhole log hlog) (newline_not_mem_render _)
  have htext : (logs.map out).flatMap (fun text => text ++ ['\n']) =
      logs.flatMap fun log => redact log.order (formatEvent fromStr log.event) := by
    rw [List.flatMap_map]
    exact List.flatMap_congr fun log hlog => (hout log hlog).symm
  have heq : (lines.flatMap fun line => line ++ ['\n']) =
      (logs.map out).flatMap fun text => text ++ ['\n'] := by
    have hread := congrArg fromUtf8 hfile
    rw [logFile, logFile_text, List.nil_append, fromUtf8_utf8, fromUtf8_utf8] at hread
    rw [htext]
    exact (Option.some.inj hread).symm
  obtain rfl := lines_unique (fun line hmem => (hlines line hmem).1) houts heq
  intro log hlog
  obtain ⟨fields, hread⟩ := (hlines (out log) (List.mem_map_of_mem hlog)).2
  rw [hout log hlog, scan_append, scan_parse hread]
  rfl

/-- In every run whose passes find their secrets within string content, the file
has one object a line and a line an event; with whole secrets, in no other run. -/
theorem log_lines_exact (fromStr : Text → Option Json) (logs : List Logged) :
    ((∀ log ∈ logs, InStrings log.order (formatEvent fromStr log.event)) →
      Ndjson (logFile fromStr logs) logs.length) ∧
    ((∀ log ∈ logs, ∀ t ∈ log.secrets.values, Whole t) →
      (Ndjson (logFile fromStr logs) logs.length ↔
        ∀ log ∈ logs, InStrings log.order (formatEvent fromStr log.event))) := by
  have hrun : (∀ log ∈ logs, InStrings log.order (formatEvent fromStr log.event)) →
      Ndjson (logFile fromStr logs) logs.length := fun hin => by
    have hempty : Ndjson [] 0 := ⟨[], rfl, by simp, rfl⟩
    have h := ndjson_run hempty hin
    rwa [Nat.zero_add] at h
  refine ⟨hrun, fun hsecrets => ⟨fun h log hlog => ?_, hrun⟩⟩
  have hwhole : ∀ log ∈ logs, ∀ t ∈ log.order, Whole t := fun log hlog t ht =>
    hsecrets log hlog t ((log.iteration.mem t).mp ht)
  have hscan := scan_of_ndjson hwhole h log hlog
  rcases redact_inside_or_broken log.ne_nil (hwhole log hlog) (formatEvent fromStr log.event)
    with ⟨hin, _⟩ | hbroken
  · exact hin
  · rw [hbroken] at hscan
    cases hscan

end Files

section OneLine

/-- What the handler of an elicitation logs, with a timeout of ten seconds. -/
def elicitationEvent : Event :=
  ⟨.debug, "fanin_mcp::forward".toList, [
    ("message".toList, .debug "create_elicitation invoked".toList),
    ("server".toList, .debug "db".toList),
    ("peer_cell_set".toList, .bool true),
    ("elicitation_available".toList, .bool true),
    ("effective_timeout_secs".toList, .u64 10)], []⟩

def elicitationLog (secret : Text) (h : secret ≠ []) : Logged :=
  ⟨.only secret h, [secret], iterationOf_only h, elicitationEvent⟩

/-- The level and the field name of the timeout are string content. -/
example : InStrings ["e".toList] (formatEvent (fun _ => none)
    ⟨.debug, "fanin".toList, [("seconds".toList, .u64 10)], []⟩) :=
  (inStrings_iff (by simp) _).mp (by decide +kernel)

/-- The secret `1` is found in the number of seconds. -/
theorem number_redacted : ¬ Ndjson (logFile parse [elicitationLog "1".toList (by decide)]) 1 := by
  have hwhole : ∀ log ∈ [elicitationLog "1".toList (by decide)], ∀ t ∈ log.order, Whole t := by
    intro log hlog t ht
    obtain rfl := List.mem_singleton.mp hlog
    obtain rfl := List.mem_singleton.mp ht
    decide
  intro h
  have hscan := scan_of_ndjson hwhole h _ (List.mem_singleton_self _)
  revert hscan
  decide +kernel

end OneLine

end FaninMcp.LogLines
