import ComponentAudit.Path.Basic

/-!
# Relative paths

Two ways to see a path from a directory. `below?` cuts the components of the directory off the
text of the path and keeps the spelling of the rest; `relativeTo` climbs with `..` where the paths
part.
-/

namespace ComponentAudit.Path

/-! ### Paths below a directory -/

/-- The pieces after the first `n` components. -/
def dropPieces : Nat → List (List Char) → List (List Char)
  | 0, ps => ps
  | _ + 1, [] => []
  | n + 1, p :: ps => if isTrivial p then dropPieces (n + 1) ps else dropPieces n ps

/-- The text after the first `n` components, without trivial pieces at its end, and without those
at its start if anything was cut off. -/
def afterComponents (n : Nat) (s : List Char) : List Char :=
  let (head, body) := splitHead s
  match n, head.components.length with
  | 0, _ => head.text ++ joinPieces (trimPieces (pieces body))
  | n + 1, headCount =>
    joinPieces (trimPieces ((dropPieces (n + 1 - headCount) (pieces body)).dropWhile isTrivial))

/-- The rest of a path below a directory, when its components begin with those of the
directory. -/
def below? (p directory : Path) : Option Path :=
  if directory.components.isPrefixOf p.components then
    some ⟨String.ofList (afterComponents directory.components.length p.text.toList)⟩
  else none

/-! ### Climbing -/

/-- The path made of the components, each seen from those before it. -/
def ofComponents (cs : List PathComponent) : Path :=
  cs.foldl (fun p c => p.join ⟨c.text⟩) ⟨""⟩

/-- The components that lead from `base` to `path`, once `made` lead out of what has been compared.
There are none when `base` climbs where `path` does not. -/
def climb? (made : List PathComponent) :
    (path base : List PathComponent) → Option (List PathComponent)
  | [], [] => some made
  | path, [] => some (made ++ path)
  | [], _ :: base => climb? (made ++ [.parent]) [] base
  | a :: path, b :: base =>
    -- Once the paths have parted, equal components no longer count as shared.
    if made = [] ∧ a = b then climb? made path base
    else if b = .current then climb? (made ++ [a]) path base
    else if b = .parent then none
    else some (made ++ .parent :: base.map (fun _ => .parent) ++ a :: path)

/-- The path seen from `base`. When no relative path is known the path itself is taken. -/
def relativeTo (p base : Path) : Path :=
  if p.isAbsolute ≠ base.isAbsolute then p
  else match climb? [] p.components base.components with
    | some cs => ofComponents cs
    | none => p

end ComponentAudit.Path
