import ComponentAudit.Error
import ComponentAudit.Glob.Braces

/-!
# Lists of patterns

A file is selected by lists of patterns with brace alternatives: some pattern to include it and no
pattern to exclude it.
-/

namespace ComponentAudit

/-- The patterns without braces that a list stands for, in order. -/
def expandAll (patterns : List String) : List String :=
  patterns.flatMap fun p => (Glob.expandBraces p.toList).map String.ofList

/-- Reads a pattern. -/
def readPattern (text : String) : Except AuditError Glob.Pattern :=
  match Glob.Pattern.read text.toList with
  | .ok p => .ok p
  | .error f => .error (.pattern text f)

/-- Reads a list of patterns. -/
def readPatterns (patterns : List String) : Except AuditError (List Glob.Pattern) :=
  (expandAll patterns).mapM readPattern

/-- Whether one of the patterns matches the path as written. -/
def matchesAny (patterns : List Glob.Pattern) (p : Path) : Bool :=
  patterns.any (·.matches p.text.toList)

end ComponentAudit
