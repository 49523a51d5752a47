import ComponentAudit.CommandLine.Style
import ComponentAudit.Decimal.Layout
import ComponentAudit.Json.Printer
import ComponentAudit.Record.Scan
import ComponentAudit.Settings.Effective

/-!
# Printed results

The texts that commands print: for a reader, with colors if they are shown, or as JSON.
-/

namespace ComponentAudit.CommandLine

/-- A text of lines. -/
def lines (ls : List String) : String := String.join (ls.map fun l => l ++ "\n")

/-- A value as JSON. -/
def jsonText (v : Json) : String := lines [v.pretty]

/-- An issue in a file. -/
def issueLine (shown : Bool) (file : String) (i : Issue) : String :=
  let place := match i.line, i.column with
    | some l, some c => s!"{file}:{l}:{c}"
    | _, _ => file
  s!"{severityBadge shown i.severity} {bold shown place} ❲{i.rule}❳ {i.message}"

/-- A scan for a reader. -/
def renderScan (shown : Bool) (r : ScanResult) : String :=
  let issues := r.components.flatMap fun u => u.issues.map (issueLine shown u.filePath)
  let warnings := r.warnings.map fun w =>
    colored shown .gray "skipped:" ++ s!" {w.file} ({w.message})"
  let summary := s!"— Summary — files={r.scannedFiles.length} " ++
    s!"components={r.summary.totalComponents} compliant={r.summary.compliantComponents} " ++
    s!"issues={r.summary.issuesFound} skipped={r.warnings.length}"
  lines (issues ++ warnings ++ [bold shown summary])

/-- A usage for a reader. -/
def renderUsage (shown : Bool) (u : Usage) : String :=
  let verdict :=
    if u.isCompliant then boldColored shown .green "compliant"
    else boldColored shown .red "not compliant"
  let head := s!"{bold shown u.tag} {u.filePath}:{u.lineNumber}:{u.column} {verdict}"
  lines (head :: u.issues.map (issueLine shown u.filePath))

/-- A text with blanks behind it, up to a width. -/
def padded (width : Nat) (s : String) : String :=
  s ++ String.ofList (List.replicate (width - s.length) ' ')

/-- A report for a reader. -/
def renderReport (shown : Bool) (r : Report) : String :=
  let o := r.overview
  let c := r.severityCounts
  let rules := r.ruleCounts.entries.map fun e => s!"  {padded 28 e.1} {e.2}"
  let advice := r.recommendations.map fun a => s!"  • {a}"
  lines ([
      bold shown s!"Compliance report: {o.projectName}",
      s!"scanned {o.scanDate}",
      s!"files={o.totalFiles} components={o.totalComponents} " ++
        s!"score={Decimal.fixedText 1 o.complianceScore}%",
      s!"errors={c.error} warnings={c.warning} infos={c.info}"] ++
    (if rules.isEmpty then [] else bold shown "By rule:" :: rules) ++
    (if advice.isEmpty then [] else bold shown "Recommendations:" :: advice))

/-- A component of a catalog for a reader. -/
def componentLine (shown : Bool) (c : ComponentSpec) : String :=
  let required :=
    if c.required.isEmpty then "" else " required=[" ++ ", ".intercalate c.required ++ "]"
  let deprecated :=
    if !c.deprecated then ""
    else colored shown .yellow (match c.replacement with
      | some r => s!" deprecated, use {r}"
      | none => " deprecated")
  s!"  {c.name}{required}{deprecated}"

/-- A catalog for a reader. -/
def renderCatalog (shown : Bool) (c : Catalog) : String :=
  lines (s!"{bold shown c.name} {c.version} ({c.components.size} components)" ::
    c.componentList.map (componentLine shown))

/-! ### By format -/

/-- A result in a format, from its text for a reader and its JSON form. -/
def formatted (format : OutputFormat) (human : String) (json : Json) : String :=
  match format with
  | .human => human
  | .json => jsonText json

end ComponentAudit.CommandLine
