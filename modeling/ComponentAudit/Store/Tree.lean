import ComponentAudit.Store.Access

/-!
# Directory trees

A directory tree in memory, with the rules of path lookup: every piece of a path but the last must
lead to a directory, and so must the path itself when it ends in a slash or in `.`. Each entry of
the tree is kept under its names from the root down.
-/

namespace ComponentAudit

/-- An entry of a tree. -/
inductive TreeEntry where
  | directory
  | file (bytes : List UInt8)
  deriving DecidableEq, Repr

/-- A place in a tree: names from the root down. -/
abbrev Place := List String

/-- Entries by their places, and the place from which relative paths are seen. The root itself is
a directory and has no entry. -/
structure FileTree where
  current : Place := []
  entries : List (Place × TreeEntry) := []
  deriving DecidableEq, Repr

namespace FileTree

/-! ### Lookup -/

/-- The entry at a place. -/
def get? (t : FileTree) (place : Place) : Option TreeEntry :=
  if place = [] then some .directory else t.entries.lookup place

/-- The longest name, in bytes. -/
def maxName : Nat := 255

/-- The longest path, in bytes. -/
def maxPath : Nat := 4095

/-- Goes from a place to the one that a piece of a path names. -/
def step (t : FileTree) (place : Place) (piece : List Char) : Except ReadFault Place :=
  match t.get? place with
  | none => .error .notFound
  | some (.file _) => .error .notDirectory
  | some .directory =>
    if Path.isTrivial piece then .ok place
    else if piece = ['.', '.'] then .ok place.dropLast
    else if maxName < Text.byteSize piece then .error .nameTooLong
    else .ok (place ++ [String.ofList piece])

/-- The place to which a path leads, whether there is an entry or not. -/
def locate (t : FileTree) (p : Path) : Except ReadFault Place :=
  match p.text.toList with
  | [] => .error .notFound
  | c :: s =>
    if (c :: s).contains '\x00' then .error .nulInName
    else if maxPath < Text.byteSize (c :: s) then .error .nameTooLong
    else if c = '/' then (Path.pieces s).foldlM t.step []
    else (Path.pieces (c :: s)).foldlM t.step t.current

/-- The place and the entry to which a path leads. -/
def find (t : FileTree) (p : Path) : Except ReadFault (Place × TreeEntry) :=
  match t.locate p with
  | .error e => .error e
  | .ok place =>
    match t.get? place with
    | some entry => .ok (place, entry)
    | none => .error .notFound

/-- The absolute path of a place. -/
def pathOf (place : Place) : Path := ⟨"/" ++ "/".intercalate place⟩

/-- The names in the directory at a place. -/
def namesAt (t : FileTree) (place : Place) : List String :=
  t.entries.filterMap fun e => if e.1.dropLast = place then e.1.getLast? else none

/-- The answers of the tree, where nothing takes any time. -/
def access (t : FileTree) : FileAccess Id where
  kind? p :=
    match t.find p with
    | .ok (_, .directory) => some .directory
    | .ok (_, .file _) => some .file
    | .error _ => none
  names p :=
    match t.find p with
    | .ok (place, .directory) => t.namesAt place
    | _ => []
  read p :=
    match t.find p with
    | .ok (_, .file bytes) => .ok bytes
    | .ok (_, .directory) => .error .isDirectory
    | .error e => .error e
  canonical? p :=
    match t.find p with
    | .ok (place, _) => some (pathOf place)
    | .error _ => none
  clock _ := .still

/-! ### Changes -/

/-- The tree with another entry at a place. -/
def put (t : FileTree) (place : Place) (entry : TreeEntry) : FileTree :=
  { t with entries := t.entries.filter (fun e => e.1 ≠ place) ++ [(place, entry)] }

/-- Makes directories from a place down along names. -/
def descend (t : FileTree) (place : Place) : List String → Except ReadFault FileTree
  | [] => .ok t
  | name :: names =>
    let next := place ++ [name]
    match t.get? next with
    | some .directory => t.descend next names
    | some (.file _) => .error .notDirectory
    | none => (t.put next .directory).descend next names

/-- Makes the directory at a place and those above it. -/
def makeDirectory (t : FileTree) (place : Place) : Except ReadFault FileTree := t.descend [] place

/-- Writes a file, and makes the directories above it. -/
def write (t : FileTree) (place : Place) (bytes : List UInt8) : Except ReadFault FileTree :=
  match t.makeDirectory place.dropLast with
  | .error e => .error e
  | .ok t =>
    if t.get? place = some .directory then .error .isDirectory else .ok (t.put place (.file bytes))

/-- Removes what is at a place and everything below it. -/
def remove (t : FileTree) (place : Place) : Except ReadFault FileTree :=
  match t.get? place with
  | none => .error .notFound
  | some _ => .ok { t with entries := t.entries.filter fun e => !place.isPrefixOf e.1 }

end FileTree

end ComponentAudit
