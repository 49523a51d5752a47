import ComponentAudit.NameTable
import ComponentAudit.Usage.Issue
import ComponentAudit.Usage.Value

/-!
# Usages

A usage is one place in a source file where a component is invoked, with what is known of its
props. Rules add issues to it; `withIssues` keeps the verdict and the issues in step.
-/

namespace ComponentAudit

/-- The props of a usage in name order. -/
abbrev Props := NameTable PropValue

/-- One observed invocation of a component. -/
structure Usage where
  /-- Catalog name in kebab case. -/
  componentName : String
  /-- The identifier as written. -/
  tag : String
  filePath : String
  lineNumber : Nat
  column : Nat
  props : Props := {}
  /-- A spread is present, so any prop may be supplied at run time. -/
  spread : Bool := false
  /-- Index of the nearest enclosing usage of the same file. -/
  parent : Option Nat := none
  isCompliant : Bool := true
  issues : List Issue := []
  deriving DecidableEq

namespace Usage

/-- The value of a prop. Case and separators of the name do not count; of several spellings the
first in name order is taken. -/
def prop? (u : Usage) (name : String) : Option PropValue :=
  u.props.find? fun k => propKey k = propKey name

/-- Whether the prop is present. -/
def hasProp (u : Usage) (name : String) : Bool := (u.prop? name).isSome

/-- The first of the names that is present, with its value. -/
def firstProp? (u : Usage) (names : List String) : Option (String × PropValue) :=
  names.findSome? fun n => (u.prop? n).map fun v => (n, v)

/-- The names that are present, in the given order. -/
def present (u : Usage) (names : List String) : List String := names.filter u.hasProp

/-- The usage with its evaluated issues; it is compliant exactly when there are none. -/
def withIssues (u : Usage) (issues : List Issue) : Usage :=
  { u with isCompliant := issues.isEmpty, issues }

end Usage

end ComponentAudit
