/-!
# Issues

An issue is one rule violation: its family, how severe it is, the rule, a message and, where they
are known, the prop at fault and the place.
-/

namespace ComponentAudit

/-- The family of rules that an issue belongs to. -/
inductive IssueKind where
  | accessibility
  | designSystem
  | performance
  | bestPractice
  deriving DecidableEq, Repr

/-- The written form of a family. -/
def IssueKind.label : IssueKind → String
  | .accessibility => "accessibility"
  | .designSystem => "design-system"
  | .performance => "performance"
  | .bestPractice => "best-practice"

/-- The family with the given written form. -/
def IssueKind.ofLabel? (s : String) : Option IssueKind :=
  [.accessibility, .designSystem, .performance, .bestPractice].find? (·.label = s)

/-- How severe an issue is, from least to most. -/
inductive Severity where
  | info
  | warning
  | error
  deriving DecidableEq, Repr

/-- The written form of a severity. -/
def Severity.label : Severity → String
  | .info => "info"
  | .warning => "warning"
  | .error => "error"

/-- The severity with the given written form. -/
def Severity.ofLabel? (s : String) : Option Severity :=
  [.info, .warning, .error].find? (·.label = s)

/-- Position on the scale of severities. -/
def Severity.rank : Severity → Nat
  | .info => 0
  | .warning => 1
  | .error => 2

/-- The more severe of two. -/
def Severity.max (a b : Severity) : Severity := if a.rank < b.rank then b else a

/-- One rule violation. -/
structure Issue where
  kind : IssueKind
  severity : Severity
  message : String
  rule : String
  prop : Option String := none
  line : Option Nat := none
  column : Option Nat := none
  deriving DecidableEq, Repr

namespace Issue

/-- A violation of a design-system rule, not yet located. -/
def design (rule : String) (severity : Severity) (message : String) : Issue :=
  { kind := .designSystem, severity, message, rule }

/-- A violation of an accessibility rule, not yet located. -/
def accessibility (rule : String) (severity : Severity) (message : String) : Issue :=
  { kind := .accessibility, severity, message, rule }

/-- Names the prop at fault. -/
def withProp (i : Issue) (prop : String) : Issue := { i with prop := some prop }

/-- Locates the issue. -/
def locatedAt (i : Issue) (line column : Nat) : Issue :=
  { i with line := some line, column := some column }

/-- The highest severity of a list of issues. -/
def worst? (issues : List Issue) : Option Severity :=
  issues.foldl (fun w i => some (w.elim i.severity (·.max i.severity))) none

end Issue

/-- Number of issues of each severity. -/
structure SeverityCounts where
  error : Nat := 0
  warning : Nat := 0
  info : Nat := 0
  deriving DecidableEq, Repr

/-- Counts one more issue. -/
def SeverityCounts.add (c : SeverityCounts) : Severity → SeverityCounts
  | .error => { c with error := c.error + 1 }
  | .warning => { c with warning := c.warning + 1 }
  | .info => { c with info := c.info + 1 }

/-- The counts over a list of issues. -/
def SeverityCounts.ofIssues (issues : List Issue) : SeverityCounts :=
  issues.foldl (fun c i => c.add i.severity) {}

end ComponentAudit
