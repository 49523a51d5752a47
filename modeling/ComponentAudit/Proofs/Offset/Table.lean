import ComponentAudit.Proofs.Offset.Basic

/-!
# The table of sites

A scan by offsets keeps all sites in one table, in the order in which they are found, and refers to
a site that is still open by its index. The scan by characters hands sites on instead, latest first;
`recorded` is the part of the table that such a list makes.

`updateAt_append` is the fact behind every access: an entry that the scan refers to is there.
-/

namespace ComponentAudit.Offset

variable {text : List Char}

/-- How an error of the scan by characters appears. -/
def Halt.ofError : ExtractError → Halt
  | .splitCharacter => .splitLiteral
  | e => .limit e

/-- The outcome of a scan by characters. -/
def lift {α : Type} : Except ExtractError α → Checked α
  | .ok a => .ok a
  | .error e => .error (.ofError e)

@[simp] theorem lift_ok {α : Type} (a : α) : lift (.ok a) = .ok a := rfl

@[simp] theorem lift_error {α : Type} (e : ExtractError) :
    lift (.error e : Except ExtractError α) = .error (.ofError e) := rfl

theorem lift_eq_error_iff {α : Type} {r : Except ExtractError α} {h : Halt} :
    lift r = .error h ↔ ∃ e, r = .error e ∧ Halt.ofError e = h := by
  cases r <;> simp

theorem Halt.ofError_eq_splitLiteral_iff {e : ExtractError} :
    Halt.ofError e = .splitLiteral ↔ e = .splitCharacter := by
  cases e <;> simp [Halt.ofError]

/-- A site with its places as offsets. -/
def inBytes (text : List Char) (s : Site) : Site :=
  { s with start := offset text s.start, stop := offset text s.stop }

/-- The entries of the table for sites that are given latest first. -/
def recorded (text : List Char) (sites : List Site) : List Site :=
  (sites.map (inBytes text)).reverse

@[simp] theorem recorded_nil : recorded text [] = [] := rfl

@[simp] theorem recorded_append (a b : List Site) :
    recorded text (a ++ b) = recorded text b ++ recorded text a := by
  simp [recorded]

@[simp] theorem recorded_cons (s : Site) (sites : List Site) :
    recorded text (s :: sites) = recorded text sites ++ [inBytes text s] := by
  simp [recorded]

@[simp] theorem recorded_singleton (s : Site) : recorded text [s] = [inBytes text s] := rfl

@[simp] theorem length_recorded (sites : List Site) :
    (recorded text sites).length = sites.length := by
  simp [recorded]

/-- The table has the sites that were found, at their offsets, and no others. -/
theorem mem_recorded_iff {sites : List Site} {x : Site} :
    x ∈ recorded text sites ↔ ∃ s ∈ sites, inBytes text s = x := by
  rw [recorded, List.mem_reverse, List.mem_map]

/-- Changes an entry of the table. -/
def updateAt (table : List Site) (i : Nat) (f : Site → Site) : Checked (List Site) :=
  match table[i]? with
  | some s => .ok (table.set i (f s))
  | none => .error .outOfRange

/-- An entry is changed where it stands. -/
theorem updateAt_append (before after : List Site) (s : Site) (f : Site → Site) :
    updateAt (before ++ s :: after) before.length f = .ok (before ++ f s :: after) := by
  rw [updateAt, List.getElem?_append_right (Nat.le_refl _), Nat.sub_self, List.getElem?_cons_zero]
  simp

/-- Adds a site without props, when the bound allows one more. -/
def push (settings : ScanSettings) (table : List Site) (tag name : List Char) (start : Nat) :
    Checked (List Site) := do
  let site ← lift (newSite settings table.length tag name start)
  return table ++ [site]

/-- A new site goes to the end of the table, at the offset of its place. -/
theorem push_eq (settings : ScanSettings) (table : List Site) (tag name : List Char) (n : Nat) :
    push settings table tag name (offset text n) =
      lift ((newSite settings table.length tag name n).map
        fun s => table ++ recorded text [s]) := by
  rw [push, newSite, newSite]
  split <;> rfl

end ComponentAudit.Offset
