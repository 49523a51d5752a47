import ComponentAudit.Rules.Design
import ComponentAudit.Rules.Label
import ComponentAudit.Text.Blank

/-!
# Accessibility rules

Rules derived from the success criteria of WCAG, one family each. Which families run is decided
once for an engine, from the names that are requested: the name of a rule set of the catalog stands
for its families, the name of a family for itself, and any other name for nothing.

A usage with a spread is not judged on props that it lacks, since the spread may supply them; only
`keyboardInaccessible` asks for an event without regard to the spread.
-/

namespace ComponentAudit

/-- What an accessibility rule sees: a usage of a known component among those of its file. -/
structure AccessView where
  catalog : Catalog
  usage : Usage
  spec : ComponentSpec
  labels : LabelIndex
  /-- How many lines below a label provider a control is still labelled by it. -/
  proximity : Nat

namespace AccessView

/-- The props that name this component, and those that name every component. -/
def nameProps (v : AccessView) : List String :=
  v.spec.access.nameProps ++ v.catalog.access.nameProps

/-- Whether the context labels the usage. -/
def labelledByContext (v : AccessView) : Bool := v.labels.labels v.usage v.proximity

end AccessView

/-- What a rule reports, and the prop at fault if it is a single one. -/
structure Finding where
  message : String
  prop : Option String := none
  deriving DecidableEq, Repr

/-- A rule family. -/
structure AccessRule where
  id : String
  /-- The success criterion, such as `4.1.2`. -/
  criterion : String
  severity : Severity
  check : AccessView → List Finding

namespace AccessRule

/-- An interactive component without a name of its own or by context. -/
def missingAccessibleName : AccessRule where
  id := "missing-accessible-name"
  criterion := "4.1.2"
  severity := .error
  check v :=
    -- The name may be among the props that are spread.
    if !v.spec.access.interactive || v.usage.spread then []
    else if (v.usage.firstProp? v.nameProps).isSome || v.labelledByContext then []
    else [{ message :=
      s!"'{v.usage.componentName}' has no accessible name; set {oneOf v.nameProps}" }]

/-- The way to make an image accessible. -/
def altHint (traits : AccessTraits) : String :=
  oneOf traits.altProps ++
    if traits.decorativeProps.isEmpty then ""
    else s!", or mark it decorative with {oneOf traits.decorativeProps}"

/-- An image with neither a text alternative nor a mark that it is decorative. -/
def missingAltText : AccessRule where
  id := "missing-alt-text"
  criterion := "1.1.1"
  severity := .error
  check v :=
    let traits := v.spec.access
    if !traits.image || v.usage.spread || (v.usage.firstProp? traits.altProps).isSome then []
    else if traits.decorativeProps.any fun p => (v.usage.prop? p).any PropValue.isEnabled then []
    else [{ message :=
      s!"'{v.usage.componentName}' has no text alternative; set {altHint traits}" }]

/-- A state that is shown by color and not in text. -/
def colorOnlyState : AccessRule where
  id := "color-only-state"
  criterion := "1.4.1"
  severity := .warning
  check v :=
    let traits := v.spec.access
    match v.usage.present traits.stateProps with
    | [] => []
    | state :: states =>
      if v.usage.spread || !(v.usage.present traits.textProps).isEmpty then []
      else
        let shown := "', '".intercalate (state :: states)
        [{ message :=
            s!"'{v.usage.componentName}' conveys '{shown}' without text; " ++
              s!"add {oneOf traits.textProps} so the state is not shown by color alone"
           prop := some state }]

/-- Pointer events without an event that the keyboard reaches. -/
def keyboardInaccessible : AccessRule where
  id := "keyboard-inaccessible"
  criterion := "2.1.1"
  severity := .warning
  check v :=
    match v.usage.present v.catalog.access.pointerEvents with
    | [] => []
    | event :: events =>
      -- Props that are spread make no difference here.
      if !(v.usage.present v.catalog.access.keyboardEvents).isEmpty then []
      else [{
        message := s!"'{v.usage.componentName}' handles {oneOf (event :: events)} " ++
          "with no keyboard equivalent"
        prop := some event }]

/-- Whether the prop is a string of blanks only. -/
def isBlankProp (u : Usage) (prop : String) : Bool :=
  match u.prop? prop with
  | some (.literal (.string s)) => (Text.trim s.toList).isEmpty
  | _ => false

/-- Names that are set to an empty text. -/
def emptyAccessibleName : AccessRule where
  id := "empty-accessible-name"
  criterion := "2.4.6"
  severity := .error
  check v :=
    (v.nameProps.filter (isBlankProp v.usage)).map fun p =>
      { message := s!"'{v.usage.componentName}' sets '{p}' to an empty name", prop := some p }

/-- The builtin families in the order in which they run. -/
def builtin : List AccessRule :=
  [missingAccessibleName, missingAltText, colorOnlyState, keyboardInaccessible,
    emptyAccessibleName]

/-- The issue that a finding of the rule is. -/
def issue (rule : AccessRule) (u : Usage) (f : Finding) : Issue :=
  let issue := (Issue.accessibility rule.id rule.severity
    s!"{f.message} (WCAG {rule.criterion})").locatedAt u.lineNumber u.column
  { issue with prop := f.prop }

end AccessRule

/-- The families that the requested names enable. A name is looked up among the rule sets of the
catalog first. -/
def enabledFamilies (catalog : Catalog) (requested : List String) (rules : List AccessRule) :
    List String :=
  let known := fun id => rules.any fun r => r.id = id
  requested.flatMap fun id =>
    -- A rule set hides the family of its name.
    match catalog.access.ruleSets.get? id with
    | some families => families.filter known
    | none => if known id then [id] else []

/-- Evaluates the enabled accessibility rules. -/
structure AccessEngine where
  catalog : Catalog
  requested : List String
  rules : List AccessRule := AccessRule.builtin
  /-- How many lines below a label provider a control is still labelled by it. -/
  proximity : Nat := 3

namespace AccessEngine

/-- Adds a family, which runs after the others when its name is enabled. -/
def withRule (e : AccessEngine) (rule : AccessRule) : AccessEngine :=
  { e with rules := e.rules ++ [rule] }

/-- The rules that are enabled, in the order in which they run. -/
def enabledRules (e : AccessEngine) : List AccessRule :=
  let enabled := enabledFamilies e.catalog e.requested e.rules
  e.rules.filter fun r => enabled.contains r.id

/-- The issues of a usage, given the label providers of its file. -/
def evaluateWith (e : AccessEngine) (labels : LabelIndex) (u : Usage) : List Issue :=
  match e.catalog.get? u.componentName with
  | none => []
  | some spec =>
    let view := ⟨e.catalog, u, spec, labels, e.proximity⟩
    e.enabledRules.flatMap fun rule => (rule.check view).map (rule.issue u)

/-- The issues of a usage; `siblings` are all usages of its file. -/
def evaluate (e : AccessEngine) (u : Usage) (siblings : List Usage) : List Issue :=
  e.evaluateWith (.ofUsages e.catalog siblings) u

/-- The issues of every usage of a file, in the same order. -/
def evaluateFile (e : AccessEngine) (usages : List Usage) : List (List Issue) :=
  let labels := LabelIndex.ofUsages e.catalog usages
  usages.map (e.evaluateWith labels)

end AccessEngine

end ComponentAudit
