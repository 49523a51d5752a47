import ComponentAudit.Catalog.Resolve
import ComponentAudit.Glob.Pattern
import ComponentAudit.Path.Basic
import ComponentAudit.Site.Basic

/-!
# Errors

What makes a command fail. Troubles with single files never do during a scan, where they become
warnings; the one exception is a literal that ends inside a character.
-/

namespace ComponentAudit

/-- Why a file cannot be read. -/
inductive ReadFault where
  /-- There is no such file in a store. -/
  | notStored
  | notFound
  | notDirectory
  | isDirectory
  /-- The bytes are no text. -/
  | notText
  /-- A name or the whole path has too many bytes. -/
  | nameTooLong
  /-- The path holds a NUL character. -/
  | nulInName
  /-- Any other reason, in the words of the system. -/
  | refused (detail : String)
  deriving DecidableEq, Repr

/-- The wording of a fault. -/
def ReadFault.message : ReadFault → String
  | .notStored => "no such file in memory source"
  | .notFound => "No such file or directory (os error 2)"
  | .notDirectory => "Not a directory (os error 20)"
  | .isDirectory => "Is a directory (os error 21)"
  | .notText => "stream did not contain valid UTF-8"
  | .nameTooLong => "File name too long (os error 36)"
  | .nulInName => "file name contained an unexpected NUL byte"
  | .refused detail => detail

/-- Why a command fails. -/
inductive AuditError where
  | invalidProjectPath (path : Path)
  | unsupportedFormat (format : String)
  | unknownVersion (requested : String) (available : List String)
  | invalidConfig (path : Path) (detail : String)
  | catalog (fault : CatalogFault)
  | pattern (pattern : String) (fault : Glob.PatternFault)
  | unreadable (path : Path) (fault : ReadFault)
  | extraction (file : String) (error : ExtractError)
  | componentNotFound (file name : String)
  | cancelled
  deriving DecidableEq, Repr

namespace AuditError

/-- The wording of an error. -/
def message : AuditError → String
  | .invalidProjectPath path => s!"project path is not a directory: {path.text}"
  | .unsupportedFormat format =>
    s!"unsupported output format '{format}' (expected human or json)"
  | .unknownVersion requested available =>
    s!"design system version '{requested}' is not in the catalog " ++
      "(available: " ++ ", ".intercalate available ++ ")"
  | .invalidConfig path detail => s!"invalid configuration in {path.text}: {detail}"
  | .catalog fault => s!"catalog error: {fault.message}"
  | .pattern text fault => s!"invalid glob pattern '{text}': {fault.message}"
  | .unreadable path fault => s!"failed to read {path.text}: {fault.message}"
  | .extraction file error => s!"cannot extract components from {file}: {error.message}"
  | .componentNotFound file name => s!"component '{name}' not found in {file}"
  | .cancelled => "scan cancelled"

/-- The exit code of a command that fails: 1 for a lookup without result, 130 for a cancelled scan,
2 for everything else. -/
def exitCode : AuditError → Nat
  | .componentNotFound .. => 1
  | .cancelled => 130
  | _ => 2

/-- The error of a version that cannot be resolved. -/
def ofResolve : ResolveError → AuditError
  | .unknownVersion requested available => .unknownVersion requested available
  | .fault f => .catalog f

end AuditError

end ComponentAudit
