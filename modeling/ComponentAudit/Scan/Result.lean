import ComponentAudit.Usage.Basic

/-!
# Results of a scan

What a scan of a project finds, with counts over it.
-/

namespace ComponentAudit

/-- Counts over one scan. -/
structure ScanSummary where
  totalComponents : Nat
  compliantComponents : Nat
  issuesFound : Nat
  /-- Usages for every hundred files. -/
  coveragePercentage : Float

/-- The counts over usages in so many files. -/
def ScanSummary.ofComponents (components : List Usage) (files : Nat) : ScanSummary where
  totalComponents := components.length
  compliantComponents := (components.filter (·.isCompliant)).length
  issuesFound := components.foldr (fun u n => u.issues.length + n) 0
  coveragePercentage :=
    if files = 0 then 0.0
    else Float.ofNat components.length / Float.ofNat files * 100.0

/-- A file that was passed over, with the reason. -/
structure ScanWarning where
  file : String
  message : String
  deriving DecidableEq, Repr

/-- What a scan of a project finds. -/
structure ScanResult where
  projectPath : String
  scannedFiles : List String
  components : List Usage
  summary : ScanSummary
  warnings : List ScanWarning
  timestamp : String

/-- A result with the summary of its components. -/
def ScanResult.new (projectPath : String) (scannedFiles : List String) (components : List Usage)
    (warnings : List ScanWarning) (timestamp : String) : ScanResult where
  projectPath
  scannedFiles
  components
  summary := .ofComponents components scannedFiles.length
  warnings
  timestamp

end ComponentAudit
