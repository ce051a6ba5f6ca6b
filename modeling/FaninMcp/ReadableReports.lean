import FaninMcp.PreflightVerdict

/-!
# What clients and scripts can read back

A failed call is a text with five fields, and a check can print its result as one
line of JSON. Nothing is lost in either: whoever reads the text has the error
again, with all it names, and whoever reads the line has the result.
-/

set_option autoImplicit false

namespace FaninMcp.ReadableReports
open Foundation.RustText Foundation.JsonText Foundation.AsyncPrograms FaninMcp.ConfigModel
  FaninMcp.ErrorModel FaninMcp.NamespaceAcl FaninMcp.CapabilityCache FaninMcp.CacheFile
  FaninMcp.ConfigValidation FaninMcp.RegistryModel FaninMcp.CheckRun FaninMcp.NoCredentialFlow
  FaninMcp.ReportLines FaninMcp.PreflightVerdict

section Errors

structure ErrorFields where
  code : Text
  message : Text
  server : Option Text
  tool : Option Text

def readFields (text : Text) : Option ErrorFields := do
  let json ← parse text
  let code ← readField Json.asStr "code".toList json
  let message ← readField Json.asStr "message".toList json
  let server ← readField readOptional "server".toList json
  let tool ← readField readOptional "tool".toList json
  return ⟨code, message, server, tool⟩

def inner (front back text : Text) : Text :=
  (text.drop front.length).take (text.length - (front.length + back.length))

def classify (fields : ErrorFields) : Option ToolError :=
  match fields.server, fields.tool with
  | none, some tool =>
    if fields.code = "invalid_request".toList then some (.invalidRequest tool fields.message)
    else none
  | some server, none =>
    if fields.code = "unknown_server".toList then some (.unknownServer server)
    else if fields.code = "namespace_denied".toList then some (.namespaceDenied server none)
    else if fields.code = "upstream_connect_failed".toList then
      some (.upstreamConnect server fields.message)
    else if fields.code = "upstream_timeout".toList then some (.upstreamTimeout server none)
    else if fields.code = "credential_resolution_failed".toList then
      some (.credentialResolution server (inner "missing credential `".toList
        ("` for server `".toList ++ server ++ "`".toList) fields.message))
    else none
  | some server, some tool =>
    if fields.code = "unknown_tool".toList then some (.unknownTool server tool)
    else if fields.code = "namespace_denied".toList then some (.namespaceDenied server (some tool))
    else if fields.code = "upstream_call_failed".toList then
      some (.upstreamCall server tool fields.message)
    else if fields.code = "upstream_disconnected".toList then
      some (.upstreamDisconnected server tool)
    else if fields.code = "upstream_timeout".toList then some (.upstreamTimeout server (some tool))
    else if fields.code = "call_cancelled".toList then some (.callCancelled server tool)
    else none
  | none, none => none

/-- The one error that is not an object is told by its first words. -/
def readError (text : Text) : Option ToolError :=
  let front := "tool `".toList
  if front.isPrefixOf text then
    some (.notImplemented (inner front ("` is not implemented in this build of fanin-mcp; " ++
      "upstream proxying is not wired yet").toList text))
  else (readFields text).bind classify

def readResult (result : CallToolResult) : Option ToolError :=
  match result.isError, result.content with
  | some true, [block] => (readField Json.asStr "text".toList block).bind readError
  | _, _ => none

theorem inner_between (front text back : Text) : inner front back (front ++ text ++ back) = text := by
  have hlength : (front ++ text ++ back).length - (front.length + back.length) = text.length := by
    simp only [List.length_append]
    omega
  rw [inner, hlength, List.append_assoc, List.drop_left, List.take_left]

theorem readOptional_text (text : Option Text) : readOptional (optionalText text) = some text := by
  cases text <;> rfl

theorem readFields_structured (server tool : Option Text) (code message : Text) :
    readFields (structuredError server tool code message) =
      some ⟨code, message, server, tool⟩ := by
  rw [readFields, structuredError, parse_rendered]
  dsimp only [bind, Option.bind]
  rw [readField_get rfl, readField_get rfl, readField_get rfl, readField_get rfl,
    readOptional_text, readOptional_text]
  rfl

theorem readError_structured (server tool : Option Text) (code message : Text) :
    readError (structuredError server tool code message) =
      classify ⟨code, message, server, tool⟩ := by
  have hobject : "tool `".toList.isPrefixOf (structuredError server tool code message) = false := by
    rfl
  rw [readError, hobject]
  simp [readFields_structured]

theorem notImplemented_read (tool : Text) :
    readError (ToolError.notImplemented tool).message = some (.notImplemented tool) := by
  have hmessage : (ToolError.notImplemented tool).message = "tool `".toList ++ tool ++
      ("` is not implemented in this build of fanin-mcp; " ++
        "upstream proxying is not wired yet").toList := rfl
  have hfront : "tool `".toList.isPrefixOf (ToolError.notImplemented tool).message = true := by
    rw [hmessage, List.append_assoc]
    exact List.isPrefixOf_iff_prefix.mpr (List.prefix_append _ _)
  rw [readError, if_pos hfront, hmessage, inner_between]

theorem credentialResolution_read (server key : Text) :
    readError (ToolError.credentialResolution server key).message =
      some (.credentialResolution server key) := by
  have hmessage : "missing credential `".toList ++ key ++ "` for server `".toList ++ server ++
      "`".toList = "missing credential `".toList ++ key ++
        ("` for server `".toList ++ server ++ "`".toList) := by
    simp only [List.append_assoc]
  refine (readError_structured (some server) none _ _).trans ?_
  rw [hmessage]
  exact congrArg (fun found => some (ToolError.credentialResolution server found))
    (inner_between ..)

theorem readError_message (e : ToolError) : readError e.message = some e := by
  cases e with
  | notImplemented tool => exact notImplemented_read tool
  | credentialResolution server key => exact credentialResolution_read server key
  | namespaceDenied server tool => cases tool <;> exact (readError_structured ..).trans rfl
  | upstreamTimeout server tool => cases tool <;> exact (readError_structured ..).trans rfl
  | _ => exact (readError_structured ..).trans rfl

/-- Whatever a client is answered instead of a result tells it the error, with
all that the error names. -/
theorem errors_readable (e : ToolError) : readResult e.asResult = some e := by
  rw [readResult, ToolError.asResult, CallToolResult.error]
  exact readError_message e

end Errors

section Reports

/-- The error of a check that ends before any server is asked. -/
inductive Refused (host : Host) (args : CheckArgs) : CheckError → Prop
  | unnamed : args.configPath = none →
    Refused host args ⟨none, "config_required".toList, none,
      "--config is required for check".toList, none⟩
  | invalid (path : Text) (error : StartupError) : args.configPath = some path →
    loadAndValidate host.iteration host.fromStr (host.readToString path) args.namespaceArg =
      .error (.returned error) →
    Refused host args ⟨none, "config_validation_failed".toList, none,
      "config could not be loaded and validated".toList, none⟩
  | hidden (config : TomlConfig) (server : Text) : loadConfig host args = .ok config →
    args.serverFilter = some server →
    ¬ Visible config (selectedNamespace args.namespaceArg) server →
    Refused host args ⟨some server, "server_not_allowed".toList, none,
      "server is not visible in the selected namespace".toList, none⟩

variable {host : Host} {args : CheckArgs} {State : Type} {R : Semantics registryOps State}
  {s s' : State} {t : List (Exchange registryOps)} {out : Emitted × Files}

inductive Reports (host : Host) (args : CheckArgs) (R : Semantics registryOps State)
    (s s' : State) (t : List (Exchange registryOps)) (report : CheckResult) : Prop
  | refused (error : CheckError) : Refused host args error → t = [] → s' = s →
    report.servers = [] → report.errors = [error] → Reports host args R s s' t report
  | asked (config : TomlConfig) (servers : List Text) (outcomes : List (Outcome (List Tool))) :
    loadConfig host args = .ok config → servers.Nodup →
    (∀ x, x ∈ servers ↔
      Checked config (selectedNamespace args.namespaceArg) args.serverFilter x) →
    Runs R (inventories config servers) s t outcomes s' → outcomes.length = servers.length →
    Verdict config (selectedNamespace args.namespaceArg) (servers.zip outcomes) report →
    Reports host args R s s' t report

theorem loadConfig_refused {error : CheckError} (h : loadConfig host args = .error (.failed error)) :
    Refused host args error := by
  rw [loadConfig] at h
  cases hpath : args.configPath with
  | none =>
    rw [hpath] at h
    obtain rfl := Stop.failed.inj (Except.error.inj h)
    exact .unnamed hpath
  | some path =>
    rw [hpath] at h
    dsimp only at h
    cases hload : loadAndValidate host.iteration host.fromStr (host.readToString path)
        args.namespaceArg with
    | ok config => simp [hload] at h
    | error failure =>
      cases failure with
      | panicked message => simp [hload] at h
      | returned error =>
        rw [hload] at h
        obtain rfl := Stop.failed.inj (Except.error.inj h)
        exact .invalid path error hpath hload

theorem plan_refused {error : CheckError} (h : plan host args = .error (.failed error)) :
    Refused host args error := by
  cases hload : loadConfig host args with
  | error stop =>
    rw [plan, hload] at h
    obtain rfl := Except.error.inj h
    exact loadConfig_refused hload
  | ok config =>
    obtain ⟨ns, hnew⟩ := loaded_namespace hload
    rw [plan_loaded hload hnew] at h
    cases hfilter : args.serverFilter with
    | none => simp [hfilter, checkedServers, Except.map] at h
    | some server =>
      rw [hfilter, checkedServers] at h
      split_ifs at h with hallowed
      · cases h
      · obtain rfl := Stop.failed.inj (Except.error.inj h)
        exact .hidden config server hload hfilter fun hvisible =>
          hallowed ((visible_iff hnew server).mpr hvisible)

theorem plan_visible {p : Plan} (h : plan host args = .ok p) :
    loadConfig host args = .ok p.config ∧
      ∀ server, args.serverFilter = some server →
        Visible p.config (selectedNamespace args.namespaceArg) server := by
  cases hload : loadConfig host args with
  | error stop => simp [plan, hload] at h
  | ok config =>
    obtain ⟨ns, hnew⟩ := loaded_namespace hload
    rw [plan_loaded hload hnew] at h
    cases hservers : checkedServers ns args.serverFilter with
    | error stop => simp [hservers, Except.map] at h
    | ok servers =>
      rw [hservers] at h
      obtain rfl := Except.ok.inj h
      refine ⟨rfl, fun server hfilter => ?_⟩
      rw [hfilter, checkedServers] at hservers
      split_ifs at hservers with hallowed
      exact (visible_iff hnew server).mp hallowed

/-- However a check ends, what it prints is its report, and a reader of the line has
the whole of it again: the error for which no server was asked, or the verdict on
the inventories of those that were. Success is to have no errors. -/
theorem reports_readable (hrun : Runs R (run host args) s t out s') :
    ∃ report : CheckResult, out.1 = emit report args.json ∧ Prints report args.json out.1 ∧
      report.namespaceName = selectedNamespace args.namespaceArg ∧
      (out.1.success = true ↔ report.errors = []) ∧ Reports host args R s s' t report := by
  cases hplan : plan host args with
  | error stop =>
    cases stop with
    | failed error =>
      rw [run, hplan] at hrun
      obtain ⟨rfl, rfl, rfl⟩ := runs_done.mp hrun
      exact ⟨_, rfl, emit_prints _ _, rfl, by cases args.json <;> simp [emit, CheckResult.failure],
        .refused error (plan_refused hplan) rfl rfl rfl rfl⟩
    | panicked message =>
      rw [run, hplan] at hrun
      obtain ⟨never, -⟩ := runs_act.mp hrun
      exact never.elim
  | ok p =>
    obtain ⟨hload, hfilter⟩ := plan_visible hplan
    obtain ⟨ns, servers, outcomes, hnew, hnodup, hmem, hasked, hblame, rfl⟩ :=
      run_recorded hload hrun hfilter
    have hverdict := recorded_verdict hnew (asked_distinct hnodup hblame)
      fun one hone => List.forall₂_zip hblame hone
    refine ⟨_, rfl, emit_prints _ _, ?_, ?_,
      .asked p.config servers outcomes hload hnodup hmem hasked hblame.length_eq.symm hverdict⟩
    · obtain ⟨acl, -, rfl⟩ := new_resolved hnew
      rw [recordAll_eq]
      rfl
    · exact (Bool.eq_iff_iff.mp (emit_prints _ _).success).trans List.isEmpty_iff

end Reports

theorem reports_readable_refused :
    ∃ t out, Runs (answering (refusing (refusal "alpha".toList)))
        (run (hostOf "alpha".toList) checkDb) () t out () ∧
      ∃ report line, out.1.stdout = line ++ ['\n'] ∧ readReport line = some (printed report) ∧
        Reports (hostOf "alpha".toList) checkDb (answering (refusing (refusal "alpha".toList)))
          () () t report := by
  obtain ⟨t, hasked⟩ := runs_evaluated.mpr alpha_refused
  have hrun := (run_planned (hostOf_plan "alpha".toList)).mpr ⟨_, hasked, rfl⟩
  obtain ⟨report, -, hprints, -, -, hreports⟩ := reports_readable hrun
  obtain ⟨-, line, hline, -, hread⟩ := hprints.line rfl
  exact ⟨t, _, hrun, report, line, hline, hread, hreports⟩

end FaninMcp.ReadableReports
