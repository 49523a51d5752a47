import ComponentAudit.Document.Yaml.Gap

/-!
# Plain scalars of YAML

A plain scalar has no quotes and may go over several lines. It ends in front of a colon with a gap
behind it, a comment, a document mark and, inside brackets, in front of the characters that divide
their contents. Outside of brackets it also ends where a line is not indented as far as its context
asks for.
-/

namespace ComponentAudit.Yaml

/-- A character that divides what brackets hold. -/
def isFlowMark (c : Char) : Bool := ",[]\x7b\x7d".toList.contains c

/-- Where a plain scalar stands: inside brackets or not, and in which column its lines must begin at
least. -/
structure PlainContext where
  flow : Bool
  indent : Int

/-- Whether a plain scalar may begin with the text. -/
def beginsPlain (flow : Bool) : List Char → Bool
  | [] => false
  | c :: s =>
    if c = '-' then !s.head?.any isBlank
    else if c = '?' || c = ':' then !flow && !atGap s
    else !(isBlank c || isBreak c || ",[]\x7b\x7d#&*!|>'\"%@\x60".toList.contains c)

/-- Whether a plain scalar ends in front of the text. -/
def endsPlain (flow : Bool) : List Char → Bool
  | [] => true
  | c :: s => (c = ':' && atGap s) || (flow && isFlowMark c)

/-- A colon with no gap behind it that must not stand inside brackets. -/
def isStrayColon (flow : Bool) : List Char → Bool
  | ':' :: s => flow && s.head?.any fun c => c = '?' || isFlowMark c
  | _ => false

/-- A word after a gap that does not belong to the scalar. -/
def leavesPlain (ctx : PlainContext) (p : Place) : Bool :=
  (!ctx.flow && p.column < ctx.indent) || p.rest.head? = some '#' ||
    (p.column = 0 && beginsWithDocumentMark p.rest)

/-- A scalar that has been read. -/
structure Scanned where
  text : List Char
  /-- The place behind the scalar and the gap that follows it. -/
  after : Place
  /-- Whether a line has been begun since the last word of the scalar. -/
  newLine : Bool := false

/-- The rest of a plain scalar. `done` holds what has been read, last first, and `gap` the gap since
then, if there is one. -/
def plainRest? (ctx : PlainContext) (done : List Char) (gap : Option Gap) (line column : Nat) :
    List Char → Option Scanned
  | [] => some ⟨done.reverse, ⟨[], line, column⟩, gap.any (·.first.isSome)⟩
  | c :: s =>
    let here : Place := ⟨c :: s, line, column⟩
    if isBreak c then plainRest? ctx done (some ((gap.getD {}).push c)) (line + 1) 0 s
    else if isBlank c then
      -- A tab must not stand where a line has to be indented.
      if c = '\t' && column < ctx.indent && gap.any (·.first.isSome) then none
      else plainRest? ctx done (some ((gap.getD {}).push c)) line (column + 1) s
    else if (gap.isSome && leavesPlain ctx here) || endsPlain ctx.flow (c :: s) then
      some ⟨done.reverse, here, gap.any (·.first.isSome)⟩
    else if isStrayColon ctx.flow (c :: s) then none
    else plainRest? ctx (c :: ((gap.map Gap.text).getD [] ++ done)) none line (column + 1) s

/-- The plain scalar at a place. -/
def plain? (ctx : PlainContext) (p : Place) : Option Scanned :=
  plainRest? ctx [] none p.line p.column p.rest

end ComponentAudit.Yaml
