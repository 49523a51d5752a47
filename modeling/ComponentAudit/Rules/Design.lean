import ComponentAudit.Catalog.Resolve
import ComponentAudit.Usage.Basic

/-!
# Design-system rules

Each rule looks at one usage and what the catalog says about its component, and reports issues. An
engine runs its rules in order and locates what they report at the usage. A usage with a spread is
never judged on a prop that it lacks, and an unresolved value never fails a check; both give
remarks of severity `info` at most.
-/

namespace ComponentAudit

/-- A list of names for a reader: `text, label or aria-label`. -/
def oneOf : List String → String
  | [] => ""
  | [name] => name
  | names => ", ".intercalate names.dropLast ++ " or " ++ names.getLast?.getD ""

/-- What a design rule sees. -/
structure DesignView where
  catalog : Catalog
  usage : Usage
  /-- The catalog entry of the component, if it has one. -/
  spec : Option ComponentSpec

/-- A rule with its name. -/
structure DesignRule where
  id : String
  check : DesignView → List Issue

namespace DesignRule

/-- A component that the catalog does not know. -/
def unknownComponent : DesignRule where
  id := "unknown-component"
  check v :=
    match v.spec with
    | some _ => []
    | none => [.design "unknown-component" .info
        (s!"'{v.usage.componentName}' is not a known {v.catalog.name} component " ++
          s!"(version {v.catalog.version})")]

/-- The advice to use something else. -/
def useInstead : Option String → String
  | some r => s!"; use '{r}' instead"
  | none => ""

/-- A component that should no longer be used. -/
def deprecatedComponent : DesignRule where
  id := "deprecated-component"
  check v :=
    match v.spec with
    | none => []
    | some spec =>
      if spec.deprecated then
        [.design "deprecated-component" .warning
          (s!"'{spec.name}' is deprecated" ++ useInstead spec.replacement)]
      else []

/-- The issue of a required prop that is absent; with a spread it may still be supplied. -/
def missingProp (u : Usage) (prop : String) : Issue :=
  let issue : Issue :=
    if u.spread then
      .design "missing-required-prop" .info
        (s!"could not statically verify required prop '{prop}' on '{u.componentName}': " ++
          "props are spread")
    else
      .design "missing-required-prop" .error
        s!"'{u.componentName}' is missing required prop '{prop}'"
  issue.withProp prop

/-- Required props that are absent. -/
def missingRequiredProp : DesignRule where
  id := "missing-required-prop"
  check v :=
    match v.spec with
    | none => []
    | some spec => (spec.required.filter fun p => !v.usage.hasProp p).map (missingProp v.usage)

/-- The issue of a deprecated prop that is present. -/
def deprecatedPropIssue (u : Usage) (d : DeprecatedProp) : Issue :=
  let note := match d.note with
    | some n => s!" ({n})"
    | none => ""
  (Issue.design "deprecated-prop" .warning
    (s!"prop '{d.prop}' on '{u.componentName}' is deprecated" ++ useInstead d.replacement ++
      note)).withProp d.prop

/-- Props that should no longer be used. -/
def deprecatedProp : DesignRule where
  id := "deprecated-prop"
  check v :=
    match v.spec with
    | none => []
    | some spec =>
      (spec.deprecatedProps.filter fun d => v.usage.hasProp d.prop).map
        (deprecatedPropIssue v.usage)

/-- The issue of a prop whose value is none of the allowed ones. What is known only at run time is
not judged, and a value of which nothing is known is remarked. -/
def enumIssue? (u : Usage) (prop : String) (allowed : List String) : Option Issue :=
  match u.prop? prop with
  | some (.literal l) =>
    if allowed.contains l.text then none
    else some ((Issue.design "invalid-enum-value" .error
      (s!"'{l.text}' is not a valid value for '{prop}' on '{u.componentName}'; " ++
        s!"expected {oneOf allowed}")).withProp prop)
  | some .unresolved =>
    some ((Issue.design "unverified-prop-value" .info
      s!"could not statically verify the value of '{prop}' on '{u.componentName}'").withProp prop)
  | some (.reference _) => none
  | none => none

/-- Props with a value that is not allowed. -/
def invalidEnumValue : DesignRule where
  id := "invalid-enum-value"
  check v :=
    match v.spec with
    | none => []
    | some spec => spec.enums.entries.filterMap fun e => enumIssue? v.usage e.1 e.2

/-- Whether a literal switches the prop on. -/
def isSet (u : Usage) (prop : String) : Bool := (u.prop? prop).any PropValue.isSetLiteral

/-- The issue of two props that exclude each other. -/
def combinationIssue (u : Usage) (pair : String × String) : Issue :=
  (Issue.design "forbidden-prop-combination" .warning
    s!"'{pair.1}' and '{pair.2}' cannot be combined on '{u.componentName}'").withProp pair.2

/-- Pairs of props that exclude each other and are both switched on. -/
def forbiddenPropCombination : DesignRule where
  id := "forbidden-prop-combination"
  check v :=
    match v.spec with
    | none => []
    | some spec =>
      (spec.exclusive.filter fun p => isSet v.usage p.1 && isSet v.usage p.2).map
        (combinationIssue v.usage)

/-- The builtin rules in the order in which they run. -/
def builtin : List DesignRule :=
  [unknownComponent, deprecatedComponent, missingRequiredProp, deprecatedProp, invalidEnumValue,
    forbiddenPropCombination]

end DesignRule

/-- Evaluates design rules against one catalog. -/
structure DesignEngine where
  catalog : Catalog
  rules : List DesignRule := DesignRule.builtin

namespace DesignEngine

/-- Adds a rule, which runs after the others. -/
def withRule (e : DesignEngine) (rule : DesignRule) : DesignEngine :=
  { e with rules := e.rules ++ [rule] }

/-- The issues of a usage in the order of the rules, located at the usage. -/
def evaluate (e : DesignEngine) (u : Usage) : List Issue :=
  let view := ⟨e.catalog, u, e.catalog.get? u.componentName⟩
  e.rules.flatMap fun rule => (rule.check view).map (·.locatedAt u.lineNumber u.column)

end DesignEngine

end ComponentAudit
