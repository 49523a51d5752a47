import ComponentAudit.Error
import ComponentAudit.Text.Utf8

/-!
# Access to files

The questions that commands ask about files and about the time that scanning them takes, in the
monad in which they are answered. A directory tree in memory answers them in `Id`, a disk in `IO`.
-/

namespace ComponentAudit

/-- What a path leads to. -/
inductive EntryKind where
  | file
  | directory
  /-- Neither a file nor a directory. -/
  | other
  deriving DecidableEq, Repr

/-- The questions about files. Relative paths are seen from a current directory. -/
structure FileAccess (m : Type → Type) where
  /-- What the path leads to, if it leads to anything. -/
  kind? : Path → m (Option EntryKind)
  /-- The names in a directory, in any order; none if it cannot be read. -/
  names : Path → m (List String)
  /-- The bytes of a file. -/
  read : Path → m (Except ReadFault (List UInt8))
  /-- The absolute path without `.`, `..` and links, if the path leads to anything. -/
  canonical? : Path → m (Option Path)
  /-- The clock of the extraction from a file. -/
  clock : Path → m Clock

namespace FileAccess

variable {m : Type → Type} [Monad m]

/-- Whether the path leads to a file. -/
def isFile (fs : FileAccess m) (p : Path) : m Bool := do
  return (← fs.kind? p) = some .file

/-- Whether the path leads to a directory. -/
def isDirectory (fs : FileAccess m) (p : Path) : m Bool := do
  return (← fs.kind? p) = some .directory

/-- Whether the path leads to anything. -/
def exists? (fs : FileAccess m) (p : Path) : m Bool := do
  return (← fs.kind? p).isSome

/-- The text of a file, with replacement characters for bytes that are none. -/
def readLossy (fs : FileAccess m) (p : Path) : m (Except AuditError String) := do
  match ← fs.read p with
  | .error fault => return .error (.unreadable p fault)
  | .ok bytes => return .ok (Utf8.decodeLossy bytes)

/-- The text of a file all of whose bytes are one. -/
def readText (fs : FileAccess m) (p : Path) : m (Except AuditError String) := do
  match ← fs.read p with
  | .error fault => return .error (.unreadable p fault)
  | .ok bytes =>
    match Utf8.decode? bytes with
    | some text => return .ok text
    | none => return .error (.unreadable p .notText)

/-- The path without `.`, `..` and links, or as it is when it leads nowhere. -/
def canonical (fs : FileAccess m) (p : Path) : m Path := do
  return (← fs.canonical? p).getD p

end FileAccess

end ComponentAudit
