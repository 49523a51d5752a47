import ComponentAudit.Catalog.Load
import ComponentAudit.Settings.Effective
import ComponentAudit.Store.Listing

/-!
# Projects on disk

What commands do with a project: settings are resolved from its path, the catalog is loaded, and
its files are listed, read and scanned.
-/

namespace ComponentAudit

/-- The context of a scan with the given settings and catalog. -/
def ScanContext.ofSettings (s : Settings) (catalog : Catalog) : ScanContext where
  catalog
  options := { s.limits with marker := catalog.marker }
  includes := s.includes
  excludes := s.excludes
  accessRules := s.accessRules
  accessibility := s.accessibility
  labelProximity := s.labelProximity

variable {m : Type → Type} [Monad m]

/-- The context for settings, with the catalog that they name. -/
def loadContext (fs : FileAccess m) (s : Settings) : m (Except AuditError ScanContext) := do
  return (← loadCatalog fs s.catalog s.designSystemVersion).map (ScanContext.ofSettings s)

/-- Scans the files of a project. -/
def scanProject (fs : FileAccess m) (ctx : ScanContext) (root : Path) (timestamp : String) :
    m (Except AuditError ScanResult) := do
  match ← fs.list root ctx.includes ctx.excludes with
  | .error e => return .error e
  | .ok paths =>
    let files ← paths.mapM fun p => return ⟨p, ← fs.readLossy p, ← fs.clock p⟩
    return scanFiles ctx root (← fs.canonical root).text timestamp files

/-- Validates the first usage of a component in a file. -/
def validateFile (fs : FileAccess m) (ctx : ScanContext) (file : Path) (name : String) :
    m (Except AuditError Usage) := do
  let text ← fs.readLossy file
  return validateUsage ctx (← fs.clock file) (fun _ => text) file name

/-! ### From what a command is told -/

/-- The settings and the context for what a command is told. -/
def prepare (fs : FileAccess m) (o : Overrides) :
    m (Except AuditError (Settings × ScanContext)) := do
  match ← Settings.resolve fs o with
  | .error e => return .error e
  | .ok s => return (← loadContext fs s).map fun ctx => (s, ctx)

/-- Scans a project with its settings. -/
def scanWith (fs : FileAccess m) (o : Overrides) (timestamp : String) :
    m (Except AuditError ScanResult) := do
  match ← prepare fs o with
  | .error e => return .error e
  | .ok (s, ctx) => scanProject fs ctx s.project timestamp

/-- Reports on a project with its settings. -/
def reportWith (fs : FileAccess m) (o : Overrides) (timestamp : String) :
    m (Except AuditError Report) := do
  match ← prepare fs o with
  | .error e => return .error e
  | .ok (s, ctx) =>
    return (← scanProject fs ctx s.project timestamp).map fun r => .ofScan r s.thresholds

/-- Validates the first usage of a component in a file, with the settings of its directory. -/
def validateWith (fs : FileAccess m) (o : Overrides) (file : Path) (name : String) :
    m (Except AuditError Usage) := do
  match ← prepare fs { o with project := some file.directory } with
  | .error e => return .error e
  | .ok (_, ctx) => validateFile fs ctx file name

/-- Loads the catalog of a project. -/
def catalogWith (fs : FileAccess m) (o : Overrides) : m (Except AuditError Catalog) := do
  match ← Settings.resolve fs o with
  | .error e => return .error e
  | .ok s => loadCatalog fs s.catalog s.designSystemVersion

end ComponentAudit
