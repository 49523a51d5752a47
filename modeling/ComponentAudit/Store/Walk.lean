import ComponentAudit.Glob.Pattern
import ComponentAudit.Store.Access

/-!
# Walking a pattern

Finds the paths that a glob pattern matches, by going down from the root or the current directory,
one piece of the pattern after the other. A piece without wildcards is looked up and may be `.` or
`..`; any other piece is compared with the names in a directory, and with `.` and `..` only if it
begins with a dot. A `**` goes through all directories below.

Paths come in the order of this walk, spelled as the walk reached them.
-/

namespace ComponentAudit.Glob

/-! ### Plans -/

/-- A pattern that is ready to be walked. -/
structure Plan where
  /-- Where the walk begins. -/
  start : Path
  /-- The patterns of the pieces. -/
  pieces : List Pattern
  /-- The pattern ends in a slash, so only directories match it. -/
  directoriesOnly : Bool
  deriving DecidableEq, Repr

/-- The text that a pattern without wildcards stands for. -/
def Pattern.literal? (p : Pattern) : Option (List Char) :=
  p.mapM fun
    | .char c => some c
    | _ => none

/-- Whether a pattern is a `**`. -/
def Pattern.isRecursive (p : Pattern) : Bool := p.contains .recursive

/-- The pieces between slashes, without the empty one after a last slash. -/
def splitPieces (text : List Char) : List (List Char) :=
  let pieces := Text.splitAt '/' text
  if pieces.getLast? = some [] then pieces.dropLast else pieces

/-- The plan of a pattern. The pattern must be right as a whole and in each of its pieces. -/
def Plan.read (text : List Char) : Except PatternFault Plan :=
  match Pattern.read text with
  | .error e => .error e
  | .ok _ =>
    let absolute := text.head? = some '/'
    let body := if absolute then text.drop 1 else text
    match (splitPieces body).mapM Pattern.read with
    | .error e => .error e
    | .ok pieces => .ok {
        start := if absolute then ⟨"/"⟩ else ⟨"."⟩
        pieces := if absolute && body.isEmpty then [[]] else pieces
        directoriesOnly := text.getLast? = some '/' }

/-! ### The walk -/

section

variable {m : Type → Type} [Monad m]

/-- Whether the path is the current directory, from which names are written without `./`. -/
def isCurrent (p : Path) : Bool := p.components = [.current]

/-- The path of a name in a directory. -/
def childPath (directory : Path) (name : List Char) : Path :=
  if isCurrent directory then ⟨String.ofList name⟩ else directory.join ⟨String.ofList name⟩

/-- Names in ascending order. -/
def sortNames (names : List String) : List String := names.mergeSort fun a b => !(b < a)

/-- A path at the end of a pattern, if it may be there. -/
def finish (fs : FileAccess m) (directoriesOnly : Bool) (p : Path) : m (List Path) := do
  if directoriesOnly && !(← fs.isDirectory p) then return [] else return [p]

/-- The paths of an action, if the path is a directory. -/
def ifDirectory (fs : FileAccess m) (p : Path) (paths : m (List Path)) : m (List Path) := do
  if ← fs.isDirectory p then paths else pure []

/-- Whether a piece without wildcards leads on from a path to the next one. -/
def leadsTo (fs : FileAccess m) (p : Path) (name : List Char) (next : Path) : m Bool :=
  if name = ['.'] || name = ['.', '.'] then fs.isDirectory p else fs.exists? next

/-- The special names that a piece with wildcards is compared with. -/
def specialNames (piece : Pattern) : List (List Char) :=
  if piece.head? = some (.char '.') then [['.', '.'], ['.']].filter piece.matches else []

/-- The paths that the pieces lead to from a path. `levels` bounds the directories that `**` goes
through. -/
def walk (fs : FileAccess m) (directoriesOnly : Bool) :
    (levels : Nat) → (pieces : List Pattern) → Path → m (List Path)
  | _, [], p => finish fs directoriesOnly p
  | levels, piece :: pieces, p =>
    match piece.literal? with
    | some name => do
      let next := childPath p name
      if ← leadsTo fs p name next then walk fs directoriesOnly levels pieces next else pure []
    | none => ifDirectory fs p do
      let names := sortNames (← fs.names p)
      if piece.isRecursive then
        -- One `**` after another adds nothing.
        let rest := pieces.dropWhile Pattern.isRecursive
        let found ← names.mapM fun name => do
          let child := childPath p name.toList
          let here ← match _h : rest with
            -- A `**` at the end matches directories only.
            | [] => ifDirectory fs child (pure [child])
            | next :: after =>
              if next.matches name.toList then walk fs directoriesOnly levels after child
              else pure []
          let inside ← match levels with
            | 0 => pure []
            | levels + 1 =>
              ifDirectory fs child (walk fs directoriesOnly levels (piece :: rest) child)
          pure (here ++ inside)
        pure found.flatten
      else
        let special ← (specialNames piece).mapM fun s =>
          walk fs directoriesOnly levels pieces (p.join ⟨String.ofList s⟩)
        let found ← (names.filter fun n => piece.matches n.toList).mapM fun name =>
          walk fs directoriesOnly levels pieces (childPath p name.toList)
        pure (special.flatten ++ found.flatten)
termination_by levels pieces => (levels, pieces.length)
decreasing_by
  all_goals simp_wf
  all_goals try omega
  all_goals
    have hle := (List.dropWhile_sublist Pattern.isRecursive (l := pieces)).length_le
    have hrest : (pieces.dropWhile Pattern.isRecursive).length = after.length + 1 := by
      have := congrArg List.length _h
      simpa [rest] using this
    omega

/-- A path has fewer bytes than this, so directories do not lie deeper inside each other. -/
def maxLevels : Nat := 4096

/-- The paths that match a plan. -/
def Plan.paths (plan : Plan) (fs : FileAccess m) : m (List Path) :=
  if plan.pieces.isEmpty then return []
  else walk fs plan.directoriesOnly maxLevels plan.pieces plan.start

end

end ComponentAudit.Glob
