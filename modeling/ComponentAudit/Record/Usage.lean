import ComponentAudit.Json.Value
import ComponentAudit.Usage.Basic

/-!
# Records of usages

The JSON form of prop values, issues and usages, and the way back. A field that is absent by
default is not written: `spread` when it is false, and `parent`, `prop`, `line` and `column` when
there is none. Reading takes an absent field for the default, and null for none where there may be
none. A record may also be the list of its values.
-/

namespace ComponentAudit

/-! ### Reading fields -/

namespace Json

/-- The fields of a record with the given keys, none of which may occur twice. A record may also be
written as the list of its values in the order of the keys, the last of which may be left out. -/
def record? (keys : List String) : Json → Option (List (String × Json))
  | .array items => if items.length ≤ keys.length then some (keys.zip items) else none
  | .object fields =>
    let known := (fields.map Prod.fst).filter keys.contains
    if known.Nodup then some fields else none
  | _ => none

/-- A field that must be there. -/
def required? {α : Type} (read : Json → Option α) (key : String) (fields : List (String × Json)) :
    Option α :=
  (fields.lookup key).bind read

/-- A field with a default. -/
def defaulted? {α : Type} (read : Json → Option α) (default : α) (key : String)
    (fields : List (String × Json)) : Option α :=
  match fields.lookup key with
  | none => some default
  | some v => read v

/-- A value that may be none, which is written as null. -/
def maybe? {α : Type} (read : Json → Option α) : Json → Option (Option α)
  | .null => some none
  | v => (read v).map some

/-- A case without data: its name, or an object with nothing but a null under that name. -/
def case? : Json → Option String
  | .string name => some name
  | .object [(name, .null)] => some name
  | _ => none

/-- The kind of a value and the value itself. Of a list both must be there. -/
def tagged? (j : Json) : Option (String × Option Json) :=
  match j with
  | .array [kind, value] => (case? kind).map (·, some value)
  | .array _ => none
  | j => (j.record? ["kind", "value"]).bind fun fields =>
    (required? case? "kind" fields).map (·, fields.lookup "value")

/-- All items of an array. -/
def list? {α : Type} (read : Json → Option α) (j : Json) : Option (List α) :=
  j.array?.bind fun items => items.mapM read

/-- All fields of an object, as a table. -/
def table? {α : Type} (read : Json → Option α) (j : Json) : Option (NameTable α) :=
  (j.object?.bind fun fields => fields.mapM fun (k, v) => (read v).map fun a => (k, a)).map
    NameTable.ofList

/-- An object with the fields that are present. -/
def ofFields (fields : List (Option (String × Json))) : Json := .object (fields.filterMap id)

/-- A table as an object, in name order. -/
def ofTable {α : Type} (f : α → Json) (t : NameTable α) : Json :=
  .object (t.entries.map fun e => (e.1, f e.2))

/-- A field that is written only when there is a value. -/
def present {α : Type} (key : String) (f : α → Json) (a : Option α) : Option (String × Json) :=
  a.map fun a => (key, f a)

end Json

/-! ### Values -/

/-- An object that names its kind and holds a value. -/
def tagged (kind : String) (value : Json) : Json :=
  .object [("kind", .string kind), ("value", value)]

/-- The JSON form of a literal. -/
def Literal.toJson : Literal → Json
  | .string s => tagged "string" (.string s)
  | .number s => tagged "number" (.string s)
  | .bool b => tagged "bool" (.bool b)

/-- Reads a literal. -/
def Literal.ofJson? (j : Json) : Option Literal :=
  match j.tagged? with
  | some ("string", some (.string s)) => some (.string s)
  | some ("number", some (.string s)) => some (.number s)
  | some ("bool", some (.bool b)) => some (.bool b)
  | _ => none

/-- The JSON form of a prop value. -/
def PropValue.toJson : PropValue → Json
  | .literal l => tagged "literal" l.toJson
  | .reference s => tagged "reference" (.string s)
  | .unresolved => .object [("kind", .string "unresolved")]

/-- Reads a prop value. -/
def PropValue.ofJson? (j : Json) : Option PropValue :=
  match j.tagged? with
  | some ("literal", some v) => (Literal.ofJson? v).map .literal
  | some ("reference", some (.string s)) => some (.reference s)
  -- A kind without a value may still be given a null for one.
  | some ("unresolved", none) => some .unresolved
  | some ("unresolved", some .null) => some .unresolved
  | _ => none

/-! ### Issues -/

/-- The keys of an issue. -/
def Issue.keys : List String :=
  ["type", "severity", "message", "rule", "prop", "line", "column"]

/-- The fields of an issue. -/
def Issue.fields (i : Issue) : List (Option (String × Json)) :=
  [some ("type", .string i.kind.label),
    some ("severity", .string i.severity.label),
    some ("message", .string i.message),
    some ("rule", .string i.rule),
    Json.present "prop" .string i.prop,
    Json.present "line" .nat i.line,
    Json.present "column" .nat i.column]

/-- The JSON form of an issue. -/
def Issue.toJson (i : Issue) : Json := .ofFields i.fields

/-- Reads an issue. -/
def Issue.ofJson? (j : Json) : Option Issue := do
  let f ← j.record? Issue.keys
  return {
    kind := ← Json.required? (fun j => j.case?.bind IssueKind.ofLabel?) "type" f
    severity := ← Json.required? (fun j => j.case?.bind Severity.ofLabel?) "severity" f
    message := ← Json.required? Json.string? "message" f
    rule := ← Json.required? Json.string? "rule" f
    prop := ← Json.defaulted? (Json.maybe? Json.string?) none "prop" f
    line := ← Json.defaulted? (Json.maybe? Json.nat?) none "line" f
    column := ← Json.defaulted? (Json.maybe? Json.nat?) none "column" f }

/-! ### Usages -/

/-- The keys of a usage. -/
def Usage.keys : List String :=
  ["componentName", "tag", "filePath", "lineNumber", "column", "props", "spread", "parent",
    "isCompliant", "issues"]

/-- The fields of a usage. -/
def Usage.fields (u : Usage) : List (Option (String × Json)) :=
  [some ("componentName", .string u.componentName),
    some ("tag", .string u.tag),
    some ("filePath", .string u.filePath),
    some ("lineNumber", .nat u.lineNumber),
    some ("column", .nat u.column),
    some ("props", .ofTable PropValue.toJson u.props),
    if u.spread then some ("spread", .bool true) else none,
    Json.present "parent" .nat u.parent,
    some ("isCompliant", .bool u.isCompliant),
    some ("issues", .array (u.issues.map Issue.toJson))]

/-- The JSON form of a usage. -/
def Usage.toJson (u : Usage) : Json := .ofFields u.fields

/-- Reads a usage. -/
def Usage.ofJson? (j : Json) : Option Usage := do
  let f ← j.record? Usage.keys
  return {
    componentName := ← Json.required? Json.string? "componentName" f
    tag := ← Json.required? Json.string? "tag" f
    filePath := ← Json.required? Json.string? "filePath" f
    lineNumber := ← Json.required? Json.nat? "lineNumber" f
    column := ← Json.required? Json.nat? "column" f
    props := ← Json.required? (Json.table? PropValue.ofJson?) "props" f
    -- Unlike the parent, this may be left out but not be null.
    spread := ← Json.defaulted? Json.bool? false "spread" f
    parent := ← Json.defaulted? (Json.maybe? Json.nat?) none "parent" f
    isCompliant := ← Json.required? Json.bool? "isCompliant" f
    issues := ← Json.defaulted? (Json.list? Issue.ofJson?) [] "issues" f }

end ComponentAudit
