import ComponentAudit.Path.Basic
import ComponentAudit.Scan.Result

/-!
# Compliance reports

A report is a function of one scan and the thresholds for recommendations.
-/

namespace ComponentAudit

/-- When recommendations are made. -/
structure Thresholds where
  /-- Reviewing is recommended below this score. -/
  reviewBelowScore : Float := 80.0
  /-- Addressing issues is recommended above this number of them. -/
  issuesAbove : Nat := 0

/-- The recommendation to review. -/
def reviewUsage : String := "Consider reviewing component usage patterns to improve compliance"

/-- The recommendation to address issues. -/
def addressIssues : String :=
  "Address validation issues to improve accessibility and design system compliance"

/-- The share of compliant usages in percent; 100 when there are none. -/
def complianceScore (s : ScanSummary) : Float :=
  if s.totalComponents = 0 then 100.0
  else Float.ofNat s.compliantComponents / Float.ofNat s.totalComponents * 100.0

/-- The recommendations for a score and a number of issues. -/
def recommendations (score : Float) (issuesFound : Nat) (t : Thresholds) : List String :=
  (if score < t.reviewBelowScore then [reviewUsage] else []) ++
    if t.issuesAbove < issuesFound then [addressIssues] else []

/-- The name of a project: the last component of its path. -/
def projectName (projectPath : String) : String :=
  match (Path.mk projectPath).fileName? with
  | some "" => "Unknown"
  | some name => name
  | none => "Unknown"

/-- The head of a report. -/
structure ReportOverview where
  projectName : String
  scanDate : String
  totalFiles : Nat
  totalComponents : Nat
  complianceScore : Float

/-- A compliance report. -/
structure Report where
  overview : ReportOverview
  components : List Usage
  issues : List Issue
  severityCounts : SeverityCounts
  /-- Number of issues by rule. -/
  ruleCounts : NameTable Nat
  recommendations : List String

/-- The number of issues of each rule that occurs. -/
def countRules (issues : List Issue) : NameTable Nat :=
  issues.foldl (fun t i => t.alter i.rule fun n => n.getD 0 + 1) {}

/-- The report on a scan. -/
def Report.ofScan (scan : ScanResult) (t : Thresholds) : Report :=
  let score := complianceScore scan.summary
  let issues := scan.components.flatMap (·.issues)
  { overview := {
      projectName := ComponentAudit.projectName scan.projectPath
      scanDate := scan.timestamp
      totalFiles := scan.scannedFiles.length
      totalComponents := scan.summary.totalComponents
      complianceScore := score }
    components := scan.components
    issues
    severityCounts := .ofIssues issues
    ruleCounts := countRules issues
    recommendations := ComponentAudit.recommendations score scan.summary.issuesFound t }

/-- Whether an issue of severity `error` was found. -/
def hasErrors (usages : List Usage) : Bool :=
  usages.any fun u => u.issues.any fun i => i.severity = .error

end ComponentAudit
