import ComponentAudit.Scan.Project
import ComponentAudit.Record.Scan
import ComponentAudit.Server.Tool
import ComponentAudit.Text.Blank

/-!
# Sessions

What becomes of a line: a blank line and a notification get no reply, and every other line gets
one. Which reply that is depends on the tools only for calls of them.
-/

namespace ComponentAudit

/-- The version of the program. -/
def programVersion : String := "0.1.0"

/-- What a line asks for. -/
inductive LineMeaning where
  | silence
  | reply (r : Reply)
  /-- A call of a tool, on which the reply depends. -/
  | call (id : Json) (tool : ToolCall)

namespace LineMeaning

/-- The reply to a client that introduces itself. -/
def introduction : Json :=
  .object [
    ("protocolVersion", .string "2024-11-05"),
    ("capabilities", .object [("tools", .object [])]),
    ("serverInfo", .object [("name", .string "va-monitor"), ("version", .string programVersion)])]

/-- What a request asks for. -/
def ofRequest (q : Request) : LineMeaning :=
  match q.method with
  | "initialize" => .reply ⟨q.id, .ok introduction⟩
  | "tools/list" => .reply ⟨q.id, .ok (.object [("tools", toolSchemas)])⟩
  | "tools/call" =>
    match ToolCall.ofParams q.params with
    | .ok tool => .call q.id tool
    | .error e => .reply ⟨q.id, .error e⟩
  | "ping" => .reply ⟨q.id, .ok (.object [])⟩
  | "shutdown" => .reply ⟨q.id, .ok (.object [])⟩
  | other => .reply ⟨q.id, .error (.methodNotFound other)⟩

/-- What a line asks for. `fault` says why a line is no request. -/
def ofLine (fault : String → String) (line : String) : LineMeaning :=
  if (Text.trim line.toList).isEmpty then .silence
  else match Request.parse? line with
    | none => .reply ⟨.null, .error (.unreadable (fault line))⟩
    | some q => if q.isNotification then .silence else ofRequest q

end LineMeaning

section

variable {m : Type → Type} [Monad m]

/-- The reply to a line, given what the tools do and why a line is no request. -/
def handleLine (fault : String → String) (tools : ToolCall → m (Except AuditError Json))
    (line : String) : m (Option Reply) := do
  match LineMeaning.ofLine fault line with
  | .silence => return none
  | .reply r => return some r
  | .call id tool =>
    match ← tools tool with
    | .ok v => return some ⟨id, .ok (ToolCall.content v)⟩
    | .error e => return some ⟨id, .error (.failed e)⟩

/-- Calls a tool on files. -/
def callTool (fs : FileAccess m) (verbose : Bool) (timestamp : String) (tool : ToolCall) :
    m (Except AuditError Json) := do
  let base : Overrides := { output := some "json", verbose := some verbose }
  match tool with
  | .scan path accessibility =>
    let o := { base with project := some path, accessibility := some accessibility }
    return (← scanWith fs o timestamp).map ScanResult.toJson
  | .validate file component =>
    return (← validateWith fs base file component).map Usage.toJson
  | .report path =>
    return (← reportWith fs { base with project := some path } timestamp).map Report.toJson

end

end ComponentAudit
