import ComponentAudit.Path.Relative
import ComponentAudit.Store.Patterns
import ComponentAudit.Store.Walk

/-!
# Listings of a project

The files of a project that patterns select. Patterns to include are walked from the project
directory; patterns to exclude are compared with the path of a file seen from there.
-/

namespace ComponentAudit

/-- Puts a path at its place in an ascending list, unless it is there in some spelling. -/
def insertPath (p : Path) : List Path → List Path
  | [] => [p]
  | q :: rest =>
    if p.components = q.components then q :: rest
    else if componentsLt p.components q.components then p :: q :: rest
    else q :: insertPath p rest

/-- The paths in ascending order, each in the spelling that comes first. -/
def sortPaths (paths : List Path) : List Path := paths.foldl (fun l p => insertPath p l) []

/-- The plan of a pattern to include, seen from a directory. -/
def includePlan (root : Path) (pattern : String) : Except AuditError Glob.Plan :=
  let base : Path := ⟨String.ofList (Glob.escape root.text.toList)⟩
  match Glob.Plan.read (base.join ⟨pattern⟩).text.toList with
  | .ok plan => .ok plan
  | .error fault => .error (.pattern pattern fault)

variable {m : Type → Type} [Monad m]

/-- The files of a project that some pattern includes and none excludes, in ascending order. -/
def FileAccess.list (fs : FileAccess m) (root : Path) (includes excludes : List String) :
    m (Except AuditError (List Path)) := do
  if !(← fs.isDirectory root) then return .error (.invalidProjectPath root)
  match readPatterns excludes, (expandAll includes).mapM (includePlan root) with
  | .error e, _ => return .error e
  | _, .error e => return .error e
  | .ok excludes, .ok plans =>
    let found ← plans.mapM fun plan => plan.paths fs
    let files ← found.flatten.filterM fs.isFile
    return .ok (sortPaths (files.filter fun p => !matchesAny excludes (p.relativeTo root)))

end ComponentAudit
