import ComponentAudit.Server.Reply

/-!
# Tools

The tools that can be called by requests, as they are described to a client, and the calls of
them.
-/

namespace ComponentAudit

/-- A call of a tool with its arguments. -/
inductive ToolCall where
  | scan (path : Path) (accessibility : Bool)
  | validate (file : Path) (component : String)
  | report (path : Path)
  deriving DecidableEq, Repr

/-! ### Descriptions -/

/-- A property of the arguments of a tool. -/
def propertySchema (type description : String) : Json :=
  .object [("type", .string type), ("description", .string description)]

/-- A tool with the schema of its arguments. -/
def toolSchema (name description : String) (properties : List (String × Json))
    (required : List String) : Json :=
  .object [
    ("name", .string name),
    ("description", .string description),
    ("inputSchema", .object [
      ("type", .string "object"),
      ("properties", .object properties),
      ("required", .strings required)])]

/-- The description of the tools. -/
def toolSchemas : Json := .array [
  toolSchema "scan_components" "Scan project for VA component usage and compliance"
    [("path", propertySchema "string" "Project path to scan"),
      ("includeAccessibility", .object [
        ("type", .string "boolean"),
        ("description", .string "Include accessibility validation"),
        ("default", .bool true)])]
    ["path"],
  toolSchema "validate_component" "Validate a specific component against VA design system"
    [("componentPath", propertySchema "string" "Path to component file"),
      ("componentName", propertySchema "string" "Name of VA component to validate")]
    ["componentPath", "componentName"],
  toolSchema "get_compliance_report" "Generate comprehensive compliance report"
    [("path", propertySchema "string" "Project path to analyze"),
      ("format", .object [
        ("type", .string "string"),
        ("enum", .strings ["json"]),
        ("description", .string "Report format"),
        ("default", .string "json")])]
    ["path"]]

/-! ### Calls -/

namespace ToolCall

/-- A text among the arguments. -/
def textArgument (args : Json) (key : String) : Except RequestError String :=
  match (args.field? key).bind Json.string? with
  | some s => .ok s
  | none => .error (.missingArgument key)

/-- The call of a tool with the given arguments. -/
def ofArguments (name : String) (args : Json) : Except RequestError ToolCall :=
  match name with
  | "scan_components" => do
    let path ← textArgument args "path"
    let accessibility := ((args.field? "includeAccessibility").bind Json.bool?).getD true
    return .scan ⟨path⟩ accessibility
  | "validate_component" => do
    let file ← textArgument args "componentPath"
    let component ← textArgument args "componentName"
    return .validate ⟨file⟩ component
  | "get_compliance_report" => do
    let path ← textArgument args "path"
    let format := ((args.field? "format").bind Json.string?).getD "json"
    if format = "json" then return .report ⟨path⟩
    else .error (.failed (.unsupportedFormat format))
  | other => .error (.unknownTool other)

/-- The call that the parameters of a request ask for. -/
def ofParams (params : Option Json) : Except RequestError ToolCall :=
  match params with
  | none => .error .missingParams
  | some params => do
    let name ← textArgument params "name"
    ofArguments name ((params.field? "arguments").getD (.object []))

/-- The result of a call: a text with the value that the tool gave. -/
def content (v : Json) : Json :=
  .object [("content", .array [.object [("type", .string "text"), ("text", .string v.pretty)]])]

end ToolCall

end ComponentAudit
