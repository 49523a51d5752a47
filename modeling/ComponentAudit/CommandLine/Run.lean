import ComponentAudit.CommandLine.Command
import ComponentAudit.CommandLine.Print
import ComponentAudit.Server.Session

/-!
# Running commands

What a command prints and its exit code. A command that fails prints its error and nothing else,
after the note that no configuration was found, if that is due. A scan and a validation exit with
1 when they find an issue of severity `error`.
-/

namespace ComponentAudit.CommandLine

/-- What a command leaves behind. -/
structure Outcome where
  exitCode : Nat
  stdout : String := ""
  stderr : String := ""
  /-- The error that the command failed with, if it did. -/
  error : Option AuditError := none
  deriving DecidableEq, Repr

/-- The error of a command that failed. -/
def errorText (shown : Bool) (e : AuditError) : String :=
  lines [boldColored shown .red "error:" ++ " " ++ e.message]

/-- The note that no configuration was found. -/
def noteText (shown : Bool) : String :=
  lines [boldColored shown .cyan "note:" ++ " No va-monitor.toml found; using defaults."]

/-- The outcome of a command that failed after printing a note. -/
def failure (shown : Bool) (note : String) (e : AuditError) : Outcome :=
  { exitCode := e.exitCode, stderr := note ++ errorText shown e, error := some e }

/-- The exit code for what was found. -/
def exitCodeFor (usages : List Usage) : Nat := if hasErrors usages then 1 else 0

section

variable {m : Type → Type} [Monad m]

/-- Resolves the settings of a command and goes on with them; the note is due when there is no
configuration, unless results are JSON. -/
def withSettings (fs : FileAccess m) (shown : Bool) (o : Overrides)
    (run : Settings → m (Except AuditError Outcome)) : m Outcome := do
  match ← Settings.resolve fs o with
  | .error e => return failure shown "" e
  | .ok s =>
    let note := if s.configPath.isNone && s.output = .human then noteText shown else ""
    match ← run s with
    | .error e => return failure shown note e
    | .ok outcome => return { outcome with stderr := note ++ outcome.stderr }

/-- Scans the project of the settings. -/
def scanSettings (fs : FileAccess m) (timestamp : String) (s : Settings) :
    m (Except AuditError ScanResult) := do
  match ← loadContext fs s with
  | .error e => return .error e
  | .ok ctx => scanProject fs ctx s.project timestamp

/-- Runs a scan. -/
def runScan (fs : FileAccess m) (shown : Bool) (timestamp : String) (o : Overrides) : m Outcome :=
  withSettings fs shown o fun s => do
    return (← scanSettings fs timestamp s).map fun r => {
      exitCode := exitCodeFor r.components
      stdout := formatted s.output (renderScan shown r) r.toJson }

/-- Runs a report. -/
def runReport (fs : FileAccess m) (shown : Bool) (timestamp : String) (o : Overrides) :
    m Outcome :=
  withSettings fs shown o fun s => do
    return (← scanSettings fs timestamp s).map fun r =>
      let report := Report.ofScan r s.thresholds
      { exitCode := 0
        stdout := formatted s.output (renderReport shown report) report.toJson }

/-- Runs a validation. -/
def runValidate (fs : FileAccess m) (shown : Bool) (file : Path) (component : String)
    (o : Overrides) : m Outcome :=
  withSettings fs shown { o with project := some file.directory } fun s => do
    match ← loadContext fs s with
    | .error e => return .error e
    | .ok ctx =>
      return (← validateFile fs ctx file component).map fun u => {
        exitCode := exitCodeFor [u]
        stdout := formatted s.output (renderUsage shown u) u.toJson }

/-- Runs a listing of the catalog. -/
def runCatalog (fs : FileAccess m) (shown : Bool) (o : Overrides) : m Outcome :=
  withSettings fs shown o fun s => do
    return (← loadCatalog fs s.catalog s.designSystemVersion).map fun c => {
      exitCode := 0
      stdout := formatted s.output (renderCatalog shown c) c.toJson }

/-! ### Serving -/

/-- The line without the carriage return at its end. -/
def withoutReturn (line : String) : String :=
  match line.toList.reverse with
  | '\r' :: s => String.ofList s.reverse
  | _ => line

/-- The lines of an input; after the last line break there is none. -/
def inputLines (input : String) : List String :=
  let pieces := Text.splitAt '\n' input.toList
  let pieces := if pieces.getLast? = some [] then pieces.dropLast else pieces
  pieces.map fun p => withoutReturn (String.ofList p)

/-- Answers the lines of an input. -/
def serve (fault : String → String) (tools : ToolCall → m (Except AuditError Json))
    (input : String) : m (List Reply) := do
  return (← (inputLines input).mapM (handleLine fault tools)).filterMap id

/-! ### All commands -/

/-- Runs a command. Only serving reads the input; `fault` says why a line of it is no request. -/
def Invocation.run (i : Invocation) (fs : FileAccess m) (fault : String → String) (shown : Bool)
    (timestamp input : String) : m Outcome := do
  let verbose := if i.verbose then some true else none
  match i.command with
  | .version => return { exitCode := 0, stdout := lines [programVersion] }
  | .scan path noAccessibility output versionKey sequential =>
    runScan fs shown timestamp {
      project := path.map Path.mk
      output
      designSystemVersion := versionKey
      accessibility := if noAccessibility then some false else none
      parallel := if sequential then some false else none
      verbose }
  | .validate file component output =>
    runValidate fs shown ⟨file⟩ component { output, verbose }
  | .report path format =>
    runReport fs shown timestamp { project := path.map Path.mk, output := format, verbose }
  | .catalog versionKey output =>
    runCatalog fs shown { output, designSystemVersion := versionKey, verbose }
  | .serve =>
    let replies ← serve fault (callTool fs i.verbose timestamp) input
    return { exitCode := 0, stdout := lines (replies.map Reply.line) }

end

end ComponentAudit.CommandLine
