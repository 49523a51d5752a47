import ComponentAudit.Usage.Issue

/-!
# Styles

Colors and bold type on a terminal. Without color a text is left as it is.
-/

namespace ComponentAudit.CommandLine

/-- The colors in use. -/
inductive Color where
  | red
  | green
  | yellow
  | blue
  | cyan
  | gray
  deriving DecidableEq, Repr

/-- The number that a terminal knows a color by. -/
def Color.number : Color → Nat
  | .red => 31
  | .green => 32
  | .yellow => 33
  | .blue => 34
  | .cyan => 36
  | .gray => 90

/-- A text in a color, when colors are shown. -/
def colored (shown : Bool) (c : Color) (text : String) : String :=
  if shown then s!"\x1b[{c.number}m" ++ text ++ "\x1b[39m" else text

/-- A text in bold type, when colors are shown. -/
def bold (shown : Bool) (text : String) : String :=
  if shown then "\x1b[1m" ++ text ++ "\x1b[0m" else text

/-- A text in bold type and a color. -/
def boldColored (shown : Bool) (c : Color) (text : String) : String :=
  bold shown (colored shown c text)

/-- The color of a severity. -/
def severityColor : Severity → Color
  | .error => .red
  | .warning => .yellow
  | .info => .blue

/-- The sign and the label of a severity. -/
def severityBadge (shown : Bool) (s : Severity) : String :=
  let (sign, label) := match s with
    | .error => ("✖", "⟦error⟧")
    | .warning => ("▲", "⟦warn⟧")
    | .info => ("◆", "⟦info⟧")
  colored shown (severityColor s) sign ++ " " ++ boldColored shown (severityColor s) label

end ComponentAudit.CommandLine
