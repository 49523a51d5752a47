import ComponentAudit.Site.Basic

/-!
# Enclosing sites and lines

Given the sites of a text in order of their starts, `parents` finds for each the nearest site that
encloses it, in one pass over a stack of the sites still open. `positionAt` turns a place in the
text into a line and a column, and `positions` does so for ascending places in one pass over the
text.
-/

namespace ComponentAudit

/-- The parents of sites that follow in order, the first of which has the index `n`. `enclosing`
holds the ends and indices of the sites still open, innermost first. -/
def parentWalk (enclosing : List (Nat × Nat)) (n : Nat) : List Site → List (Option Nat)
  | [] => []
  | s :: rest =>
    let enclosing := enclosing.dropWhile fun e => e.1 ≤ s.start
    let parent := enclosing.head?.map Prod.snd
    let enclosing := if s.start < s.stop then (s.stop, n) :: enclosing else enclosing
    parent :: parentWalk enclosing (n + 1) rest

/-- For each of the sites, in order of their starts, the index of the nearest earlier one whose
extent it starts in. -/
def parents (sites : List Site) : List (Option Nat) := parentWalk [] 0 sites

/-- A place in a text by line and column, both counted from one. -/
structure Position where
  line : Nat
  column : Nat
  deriving DecidableEq, Repr

/-- The position after a character at the given one. Only a line feed ends a line. -/
def Position.after (p : Position) (c : Char) : Position :=
  if c = '\n' then ⟨p.line + 1, 1⟩ else ⟨p.line, p.column + 1⟩

/-- The position of the character with the given number of characters before it. -/
def positionAt (text : List Char) (offset : Nat) : Position :=
  (text.take offset).foldl Position.after ⟨1, 1⟩

/-- The positions of ascending places. The text begins at the place `here`, whose position is
`p`. -/
def positionWalk (here : Nat) (p : Position) (text : List Char) : List Nat → List Position
  | [] => []
  | place :: places =>
    let q := (text.take (place - here)).foldl Position.after p
    q :: positionWalk place q (text.drop (place - here)) places

/-- The positions of ascending places. -/
def positions (text : List Char) (places : List Nat) : List Position :=
  positionWalk 0 ⟨1, 1⟩ text places

private theorem foldl_after_eq_positionAt (text : List Char) {here place : Nat}
    (h : here ≤ place) :
    ((text.drop here).take (place - here)).foldl Position.after (positionAt text here) =
      positionAt text place := by
  have hsplit : text.take place = text.take here ++ (text.drop here).take (place - here) := by
    rw [← List.take_add, Nat.add_sub_cancel' h]
  rw [positionAt, positionAt, hsplit, List.foldl_append]

private theorem positionWalk_eq_map (text : List Char) (places : List Nat) :
    ∀ here : Nat, (here :: places).Pairwise (· ≤ ·) →
      positionWalk here (positionAt text here) (text.drop here) places =
        places.map (positionAt text) := by
  induction places with
  | nil => intro _ _; rfl
  | cons place places ih =>
    intro here h
    have hle : here ≤ place := List.rel_of_pairwise_cons h List.mem_cons_self
    have hdrop : (text.drop here).drop (place - here) = text.drop place := by
      rw [List.drop_drop, Nat.add_sub_cancel' hle]
    rw [positionWalk, List.map_cons, foldl_after_eq_positionAt text hle, hdrop,
      ih place (List.Pairwise.of_cons h)]

/-- The pass over the text gives the position of each place. -/
theorem positions_eq_map_positionAt {text : List Char} {places : List Nat}
    (h : places.Pairwise (· ≤ ·)) : positions text places = places.map (positionAt text) :=
  positionWalk_eq_map text places 0
    (List.pairwise_cons.2 ⟨fun _ _ => Nat.zero_le _, h⟩)

end ComponentAudit
