import ComponentAudit.Error
import ComponentAudit.Extraction
import ComponentAudit.Path.Relative
import ComponentAudit.Rules.Accessibility
import ComponentAudit.Scan.Result
import ComponentAudit.Store.Memory

/-!
# Scans

A scan takes the files that were listed, with what reading them gave, and extracts and evaluates
each on its own and within its own time. A file that cannot be read or extracted, or not in time,
becomes a warning, and the others are not affected. `validateUsage` does the same for the first
usage of one component in one file.
-/

namespace ComponentAudit

/-- The patterns of files that are scanned unless the project says otherwise. -/
def defaultIncludes : List String := ["**/*.\x7bjs,jsx,ts,tsx,vue\x7d"]

/-- The patterns of files that are passed over unless the project says otherwise. -/
def defaultExcludes : List String := ["**/node_modules/**", "**/dist/**", "**/*.test.*"]

/-- The accessibility rules that are asked for unless the project says otherwise. -/
def defaultAccessRules : List String := ["wcag2a", "wcag2aa"]

/-- Everything a scan needs besides the files. -/
structure ScanContext where
  catalog : Catalog
  options : ExtractOptions
  includes : List String := defaultIncludes
  excludes : List String := defaultExcludes
  accessRules : List String := defaultAccessRules
  /-- Whether accessibility is checked. -/
  accessibility : Bool := true
  labelProximity : Nat := 3
  /-- Whether the scan has been called off. -/
  cancelled : Bool := false

namespace ScanContext

/-- The context of a catalog with defaults for everything else. -/
def ofCatalog (catalog : Catalog) : ScanContext where
  catalog
  options := { marker := catalog.marker }

/-- The design rules. -/
def designEngine (ctx : ScanContext) : DesignEngine := { catalog := ctx.catalog }

/-- The accessibility rules. -/
def accessEngine (ctx : ScanContext) : AccessEngine where
  catalog := ctx.catalog
  requested := ctx.accessRules
  proximity := ctx.labelProximity

end ScanContext

/-! ### Single files -/

/-- The usages of a file with their issues: those of the design rules, then those of the
accessibility rules if these are checked. -/
def evaluateUsages (ctx : ScanContext) (usages : List Usage) : List Usage :=
  let access :=
    if ctx.accessibility then ctx.accessEngine.evaluateFile usages else usages.map fun _ => []
  List.zipWith (fun u found => u.withIssues (ctx.designEngine.evaluate u ++ found)) usages access

/-- What came of one file. -/
inductive FileOutcome where
  | scanned (file : String) (usages : List Usage)
  | skipped (warning : ScanWarning)

/-- The label of a file in the results. -/
def fileLabel (root path : Path) : String := (path.relativeTo root).display

/-- A file that was listed. -/
structure ListedFile where
  path : Path
  /-- What reading it gave. -/
  text : Except AuditError String
  /-- The clock of its extraction. -/
  clock : Clock

/-- Scans a file that was listed. -/
def scanFile (ctx : ScanContext) (root : Path) (f : ListedFile) : Except AuditError FileOutcome :=
  let file := fileLabel root f.path
  if ctx.cancelled then .error .cancelled
  else match f.text with
    | .error e => .ok (.skipped ⟨file, e.message⟩)
    | .ok text =>
      match extractWithin ctx.options f.clock file text with
      | .ok usages => .ok (.scanned file (evaluateUsages ctx usages))
      -- No warning: cutting a character in two ends the whole scan.
      | .error .splitCharacter => .error (.extraction file .splitCharacter)
      | .error e => .ok (.skipped ⟨file, e.message⟩)

/-! ### Projects -/

/-- The files that were scanned. -/
def scannedFiles (outcomes : List FileOutcome) : List String :=
  outcomes.filterMap fun
    | .scanned file _ => some file
    | .skipped _ => none

/-- The usages of the files that were scanned. -/
def scannedUsages (outcomes : List FileOutcome) : List Usage :=
  outcomes.flatMap fun
    | .scanned _ usages => usages
    | .skipped _ => []

/-- The warnings about the files that were not. -/
def skippedFiles (outcomes : List FileOutcome) : List ScanWarning :=
  outcomes.filterMap fun
    | .scanned _ _ => none
    | .skipped w => some w

/-- Scans the listed files of a project. -/
def scanFiles (ctx : ScanContext) (root : Path) (projectPath timestamp : String)
    (files : List ListedFile) : Except AuditError ScanResult :=
  match files.mapM (scanFile ctx root) with
  | .error e => .error e
  | .ok outcomes =>
    .ok (.new projectPath (scannedFiles outcomes) (scannedUsages outcomes)
      (skippedFiles outcomes) timestamp)

/-- Scans the files of a store below a root, each with the clock for its path. -/
def MemoryStore.scan (s : MemoryStore) (ctx : ScanContext) (clocks : Path → Clock) (root : Path)
    (projectPath timestamp : String) : Except AuditError ScanResult :=
  match s.list root ctx.includes ctx.excludes with
  | .error e => .error e
  | .ok paths =>
    scanFiles ctx root projectPath timestamp (paths.map fun p => ⟨p, s.read p, clocks p⟩)

/-! ### Single usages -/

/-- The first usage of a component in a file, with its issues. Accessibility is checked whatever
the context says. -/
def validateUsage (ctx : ScanContext) (clock : Clock) (read : Path → Except AuditError String)
    (file : Path) (name : String) : Except AuditError Usage :=
  -- The name is looked up before the file is read.
  match ctx.catalog.canonicalName? name with
  | none => .error (.componentNotFound file.text name)
  | some wanted =>
    match read file with
    | .error e => .error e
    | .ok text =>
      match extractWithin ctx.options clock file.text text with
      | .error e => .error (.extraction file.text e)
      | .ok usages =>
        match usages.find? fun u => u.componentName = wanted with
        | none => .error (.componentNotFound file.text name)
        | some u =>
          .ok (u.withIssues (ctx.designEngine.evaluate u ++ ctx.accessEngine.evaluate u usages))

end ComponentAudit
