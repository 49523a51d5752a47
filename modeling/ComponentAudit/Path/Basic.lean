import ComponentAudit.Text.Find

/-!
# Paths

A path is kept as it is written, and looked at through its components: a root, a leading `.`,
`..`, and names. Repeated and trailing slashes and a `.` after the start are no components, so
paths that differ only in these are equal for every comparison; `..` is a component like others.
-/

namespace ComponentAudit

/-- A file path as written, with `/` between its pieces. -/
structure Path where
  text : String
  deriving DecidableEq, Repr

/-- A component of a path. -/
inductive PathComponent where
  /-- The `/` at the start of an absolute path. -/
  | root
  /-- A `.` at the start of a relative path. -/
  | current
  /-- `..` anywhere. -/
  | parent
  | normal (name : String)
  deriving DecidableEq, Repr

namespace PathComponent

/-- The component as it is written on its own. -/
def text : PathComponent → String
  | .root => "/"
  | .current => "."
  | .parent => ".."
  | .normal name => name

/-- Rank of the kinds of components in the order of paths. -/
def rank : PathComponent → Nat
  | .root => 0
  | .current => 1
  | .parent => 2
  | .normal _ => 3

/-- The order of components: by kind, names among themselves by code points. -/
def lt : PathComponent → PathComponent → Bool
  | .normal a, .normal b => a < b
  | a, b => a.rank < b.rank

end PathComponent

/-- The order of paths: by their first different component, and a path before its extensions. -/
def componentsLt : List PathComponent → List PathComponent → Bool
  | _, [] => false
  | [], _ :: _ => true
  | a :: as, b :: bs => if a = b then componentsLt as bs else a.lt b

namespace Path

/-! ### Pieces -/

/-- A piece between slashes that is no component. -/
def isTrivial (piece : List Char) : Bool := piece = [] || piece = ['.']

/-- The component that a piece between slashes is. -/
def componentOf (piece : List Char) : PathComponent :=
  if piece = ['.', '.'] then .parent else .normal (String.ofList piece)

/-- How a path begins, and the text after that. -/
inductive Head where
  | root
  | current
  | none
  deriving DecidableEq, Repr

/-- Splits a path into its beginning and the rest. A `.` begins a path when it is a piece of its
own. -/
def splitHead : List Char → Head × List Char
  | '/' :: s => (.root, s)
  | ['.'] => (.current, [])
  | '.' :: '/' :: s => (.current, '/' :: s)
  | s => (.none, s)

/-- The text of a beginning. -/
def Head.text : Head → List Char
  | .root => ['/']
  | .current => ['.']
  | .none => []

/-- The component of a beginning. -/
def Head.components : Head → List PathComponent
  | .root => [.root]
  | .current => [.current]
  | .none => []

/-- The pieces of the text between slashes. -/
def pieces (s : List Char) : List (List Char) := Text.splitAt '/' s

/-- The pieces with slashes between them. -/
def joinPieces (ps : List (List Char)) : List Char := ['/'].intercalate ps

/-- The pieces without the trivial ones at the end. -/
def trimPieces (ps : List (List Char)) : List (List Char) :=
  (ps.reverse.dropWhile isTrivial).reverse

/-- The components of a text. -/
def componentsOf (s : List Char) : List PathComponent :=
  let (head, body) := splitHead s
  head.components ++ ((pieces body).filter fun p => !isTrivial p).map componentOf

/-- The components of a path. -/
def components (p : Path) : List PathComponent := componentsOf p.text.toList

/-! ### Parts of a path -/

/-- A path that begins at the root. -/
def isAbsolute (p : Path) : Bool := p.text.toList.head? = some '/'

/-- The path `q` seen from `p`: `q` itself when it is absolute, otherwise both with a slash
between them unless `p` is empty or ends in one. -/
def join (p q : Path) : Path :=
  if q.isAbsolute then q
  else match p.text.toList.getLast? with
    | none => q
    | some '/' => ⟨p.text ++ q.text⟩
    | some _ => ⟨p.text ++ "/" ++ q.text⟩

/-- The path without its last component, if it has one that is not the root. -/
def parent? (p : Path) : Option Path :=
  let (head, body) := splitHead p.text.toList
  match (pieces body).reverse.dropWhile isTrivial with
  | _ :: before =>
    some ⟨String.ofList (head.text ++ joinPieces (before.dropWhile isTrivial).reverse)⟩
  | [] =>
    match head with
    -- The parent of `.` is the empty path.
    | .current => some ⟨""⟩
    | _ => none

/-- The last component, if it is a name. -/
def fileName? (p : Path) : Option String :=
  match p.components.getLast? with
  | some (.normal name) => some name
  | _ => none

/-- What follows the last dot of the file name. A name has no extension when it has no dot or only
one at its start. -/
def extension? (p : Path) : Option String :=
  match p.fileName? with
  | none => none
  | some name =>
    let (ext, before) := (name.toList.reverse.takeWhile (· ≠ '.'),
      name.toList.reverse.dropWhile (· ≠ '.'))
    -- The dot comes first here; in `.git` nothing stands behind it, so that is no extension.
    match before with
    | _ :: _ :: _ => some (String.ofList ext.reverse)
    | _ => none

/-- The directory of a file; a bare name lies in `.`. -/
def directory (p : Path) : Path :=
  match p.parent? with
  | some ⟨""⟩ => ⟨"."⟩
  | some d => d
  | none => ⟨"."⟩

/-- The components with slashes between them. A root is a component too, so an absolute path shows
two slashes. -/
def display (p : Path) : String := "/".intercalate (p.components.map PathComponent.text)

end Path

end ComponentAudit
