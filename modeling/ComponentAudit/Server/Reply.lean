import ComponentAudit.Json.Printer
import ComponentAudit.Server.Request

/-!
# Replies

A reply carries the id of its request and either a result or an error, never both.
-/

namespace ComponentAudit

/-- Why a request fails. -/
inductive RequestError where
  /-- The line is no request, for a reason in the words of the reader. -/
  | unreadable (detail : String)
  | methodNotFound (method : String)
  | missingParams
  | missingArgument (key : String)
  | unknownTool (name : String)
  /-- A tool was called and failed. -/
  | failed (error : AuditError)
  deriving DecidableEq, Repr

namespace RequestError

/-- The code of an error. -/
def code : RequestError → Int
  | .unreadable _ => -32700
  | .methodNotFound _ => -32601
  | .missingParams => -32602
  | .missingArgument _ => -32602
  | .unknownTool _ => -32602
  | .failed _ => -32000

/-- The wording of an error. -/
def message : RequestError → String
  | .unreadable detail => s!"Parse error: {detail}"
  | .methodNotFound method => s!"Method not found: {method}"
  | .missingParams => "Missing params"
  | .missingArgument key => s!"Missing '{key}' argument"
  | .unknownTool name => s!"Unknown tool: {name}"
  | .failed error => s!"Tool execution failed: {error.message}"

/-- The JSON form of an error. -/
def toJson (e : RequestError) : Json :=
  .object [("code", .int e.code), ("message", .string e.message)]

end RequestError

/-- A reply. -/
structure Reply where
  id : Json
  outcome : Except RequestError Json

namespace Reply

/-- The JSON form of a reply. -/
def toJson (r : Reply) : Json :=
  .object [
    ("jsonrpc", .string "2.0"),
    ("id", r.id),
    match r.outcome with
    | .ok result => ("result", result)
    | .error e => ("error", e.toJson)]

/-- The line of a reply. -/
def line (r : Reply) : String := r.toJson.compact

end Reply

end ComponentAudit
