import ComponentAudit.Catalog.Builtin
import ComponentAudit.Catalog.Document
import ComponentAudit.Document.Format
import ComponentAudit.Store.Access

/-!
# Loading catalogs

A catalog comes from a file of its own or is the builtin one.
-/

namespace ComponentAudit

/-- Reads the text of a catalog file. -/
def CatalogFile.ofText (path : Path) (text : String) : Except AuditError CatalogFile :=
  match ((DocumentFormat.ofPath path).read? text).bind CatalogFile.ofDocument? with
  | some file => .ok file
  | none => .error (.catalog (.unreadable path.text "not a valid catalog"))

/-- The requested version of a catalog file. -/
def CatalogFile.version (file : CatalogFile) (requested : String) : Except AuditError Catalog :=
  match file.resolve requested with
  | .ok catalog => .ok catalog
  | .error e => .error (.ofResolve e)

/-- Loads the catalog file at the path, or the builtin one, in the requested version. -/
def loadCatalog {m : Type → Type} [Monad m] (fs : FileAccess m) (path : Option Path)
    (version : String) : m (Except AuditError Catalog) := do
  match path with
  | none => return Catalog.builtin.version version
  | some path =>
    match ← fs.readText path with
    | .error e => return .error e
    | .ok text =>
      match CatalogFile.ofText path text with
      | .error e => return .error e
      | .ok file => return file.version version

end ComponentAudit
