import ComponentAudit.Document.Format
import ComponentAudit.Error

/-!
# Project configuration

What a configuration file of a project says. Every setting may be absent. A file may have no
settings besides those known here, except below `limits` and `thresholds`.
-/

namespace ComponentAudit

/-- Bounds for the extraction of one file. -/
structure LimitSettings where
  maxFileBytes : Option Nat := none
  maxSites : Option Nat := none
  maxFileMillis : Option Nat := none
  deriving DecidableEq, Repr

/-- When recommendations are made. -/
structure ThresholdSettings where
  reviewBelowScore : Option Float := none
  issuesAbove : Option Nat := none

/-- The settings of a configuration file. -/
structure ProjectConfig where
  verbose : Option Bool := none
  includePatterns : Option (List String) := none
  excludePatterns : Option (List String) := none
  accessibilityRules : Option (List String) := none
  designSystemVersion : Option String := none
  /-- A catalog file, seen from the directory of the configuration file. -/
  catalog : Option String := none
  output : Option String := none
  parallel : Option Bool := none
  labelProximityLines : Option Nat := none
  limits : Option LimitSettings := none
  thresholds : Option ThresholdSettings := none

open Document

/-- Reads the bounds. -/
def LimitSettings.ofDocument? (d : Document) : Option LimitSettings := do
  let f ← d.fullRecord? ["maxFileBytes", "maxSites", "maxFileMillis"]
  return {
    maxFileBytes := ← maybe? nat? "maxFileBytes" f
    maxSites := ← maybe? nat? "maxSites" f
    maxFileMillis := ← maybe? nat? "maxFileMillis" f }

/-- Reads the thresholds. -/
def ThresholdSettings.ofDocument? (d : Document) : Option ThresholdSettings := do
  let f ← d.fullRecord? ["reviewBelowScore", "issuesAbove"]
  return {
    reviewBelowScore := ← maybe? float? "reviewBelowScore" f
    issuesAbove := ← maybe? nat? "issuesAbove" f }

/-- Reads a configuration. -/
def ProjectConfig.ofDocument? (d : Document) : Option ProjectConfig := do
  let f ← d.closedRecord? ["verbose", "includePatterns", "excludePatterns", "accessibilityRules",
    "designSystemVersion", "catalog", "output", "parallel", "labelProximityLines", "limits",
    "thresholds"]
  return {
    verbose := ← maybe? bool? "verbose" f
    includePatterns := ← maybe? (list? text?) "includePatterns" f
    excludePatterns := ← maybe? (list? text?) "excludePatterns" f
    accessibilityRules := ← maybe? (list? text?) "accessibilityRules" f
    designSystemVersion := ← maybe? text? "designSystemVersion" f
    catalog := ← maybe? text? "catalog" f
    output := ← maybe? text? "output" f
    parallel := ← maybe? bool? "parallel" f
    labelProximityLines := ← maybe? nat? "labelProximityLines" f
    limits := ← maybe? LimitSettings.ofDocument? "limits" f
    thresholds := ← maybe? ThresholdSettings.ofDocument? "thresholds" f }

/-- Reads the text of a configuration file. -/
def ProjectConfig.ofText (path : Path) (text : String) : Except AuditError ProjectConfig :=
  match ((DocumentFormat.ofPath path).read? text).bind ProjectConfig.ofDocument? with
  | some config => .ok config
  | none => .error (.invalidConfig path "not a valid configuration")

end ComponentAudit
