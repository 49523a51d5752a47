import ComponentAudit.Path.Relative
import ComponentAudit.Store.Patterns

/-!
# Stores in memory

Files by their paths, ascending in the order of path components. Paths with the same components
name the same file: writing again replaces the text and keeps the first spelling.
-/

namespace ComponentAudit

/-- A file with its path as first written. -/
structure StoredFile where
  path : Path
  text : String
  deriving DecidableEq, Repr

/-- Files in ascending order of their paths. -/
structure MemoryStore where
  files : List StoredFile := []
  deriving DecidableEq, Repr

namespace MemoryStore

/-- Puts a file at its place in an ascending list. -/
def insertFile (f : StoredFile) : List StoredFile → List StoredFile
  | [] => [f]
  | g :: rest =>
    if f.path.components = g.path.components then { g with text := f.text } :: rest
    else if componentsLt f.path.components g.path.components then f :: g :: rest
    else g :: insertFile f rest

/-- The store with one more file, or with another text for one that it has. -/
def insert (s : MemoryStore) (path : Path) (text : String) : MemoryStore :=
  ⟨insertFile ⟨path, text⟩ s.files⟩

/-- The store of the files written one after the other. -/
def ofList (files : List (Path × String)) : MemoryStore :=
  files.foldl (fun s f => s.insert f.1 f.2) {}

/-- The text of a file. -/
def read (s : MemoryStore) (path : Path) : Except AuditError String :=
  match s.files.find? fun f => f.path.components = path.components with
  | some f => .ok f.text
  | none => .error (.unreadable path .notStored)

/-- Whether the path lies below the root and the patterns select what is left of it. -/
def selects (root : Path) (includes excludes : List Glob.Pattern) (p : Path) : Bool :=
  (p.below? root).any fun rest => matchesAny includes rest && !matchesAny excludes rest

/-- The selected files below a directory, in the order of their paths. -/
def list (s : MemoryStore) (root : Path) (includes excludes : List String) :
    Except AuditError (List Path) :=
  match readPatterns includes with
  | .error e => .error e
  | .ok includes =>
    match readPatterns excludes with
    | .error e => .error e
    | .ok excludes => .ok ((s.files.map (·.path)).filter (selects root includes excludes))

end MemoryStore

end ComponentAudit
