import ComponentAudit.Document.Yaml.Place

/-!
# Gaps inside scalars

Blanks and line breaks between the words of a scalar. Blanks in a line stay. One line break becomes
a blank, and of several the first is dropped; blanks around line breaks are dropped.
-/

namespace ComponentAudit.Yaml

/-- Blanks and line breaks since the last word. -/
structure Gap where
  /-- The blanks before the first break, last first. -/
  blanks : List Char := []
  /-- What the first break contributes, if there is one. -/
  first : Option (List Char) := none
  /-- The breaks after the first, last first. -/
  more : List Char := []

/-- A gap that begins with a break that is escaped. -/
def Gap.escaped : Gap := { first := some [] }

/-- The gap with a blank or a break more. -/
def Gap.push (g : Gap) (c : Char) : Gap :=
  if isBreak c then
    match g.first with
    | none => { first := some [c] }
    | some _ => { g with more := c :: g.more }
  else if g.first.isSome then g
  else { g with blanks := c :: g.blanks }

/-- What stands for the gap in the scalar, last character first. -/
def Gap.text (g : Gap) : List Char :=
  match g.first with
  | none => g.blanks
  | some ['\n'] => if g.more = [] then [' '] else g.more
  | some first => g.more ++ first

end ComponentAudit.Yaml
