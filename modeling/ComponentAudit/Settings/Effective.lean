import ComponentAudit.Scan.Report
import ComponentAudit.Scan.Run
import ComponentAudit.Settings.Config
import ComponentAudit.Store.Access

/-!
# Effective settings

Which settings a command works with: what it was told goes before what the configuration file
says, and that before the defaults. The configuration file is looked for in the project directory
and those above it, up to the first one that holds a repository.
-/

namespace ComponentAudit

/-! ### Finding the configuration -/

/-- The names of configuration files, in the order in which they are looked for. -/
def configNames : List String := ["va-monitor.toml", "va-monitor.yaml", "va-monitor.yml"]

/-- The entry that marks the directory of a repository. -/
def repositoryMark : String := ".git"

section

variable {m : Type → Type} [Monad m]

/-- The first of the paths that leads to a file. -/
def firstFile? (fs : FileAccess m) : List Path → m (Option Path)
  | [] => return none
  | p :: paths => do if ← fs.isFile p then return some p else firstFile? fs paths

/-- The configuration file in a directory. -/
def configIn? (fs : FileAccess m) (directory : Path) : m (Option Path) :=
  firstFile? fs (configNames.map fun name => directory.join ⟨name⟩)

/-- Whether the search for the configuration ends in this directory. -/
def endsSearch (fs : FileAccess m) (directory : Path) : m Bool := do
  if (← configIn? fs directory).isSome then return true
  else fs.exists? (directory.join ⟨repositoryMark⟩)

/-- The directory and those above it, as far as the path names them. -/
def Path.ancestors : (fuel : Nat) → Path → List Path
  | 0, p => [p]
  | fuel + 1, p =>
    match p.parent? with
    | none => [p]
    | some d => p :: Path.ancestors fuel d

/-- The first of the directories in which the search ends. -/
def firstEnd? (fs : FileAccess m) : List Path → m (Option Path)
  | [] => return none
  | d :: directories => do
    if ← endsSearch fs d then return some d else firstEnd? fs directories

/-- The directory of the configuration for a project: the nearest one that holds a configuration
file or a repository, or the project itself if there is none. -/
def configRoot (fs : FileAccess m) (project : Path) : m Path := do
  let start ← fs.canonical project
  return (← firstEnd? fs (start.ancestors start.components.length)).getD start

/-- Loads the configuration file of a directory, if there is one. -/
def loadConfig (fs : FileAccess m) (directory : Path) :
    m (Except AuditError (Option (Path × ProjectConfig))) := do
  match ← configIn? fs directory with
  | none => return .ok none
  | some path =>
    match ← fs.readText path with
    | .error e => return .error e
    | .ok text =>
      match ProjectConfig.ofText path text with
      | .error e => return .error e
      | .ok config => return .ok (some (path, config))

end

/-! ### Merging -/

/-- How results are written. -/
inductive OutputFormat where
  | human
  | json
  deriving DecidableEq, Repr

/-- The name of a format. -/
def OutputFormat.label : OutputFormat → String
  | .human => "human"
  | .json => "json"

/-- The format of a name. -/
def OutputFormat.ofLabel (s : String) : Except AuditError OutputFormat :=
  match [OutputFormat.human, .json].find? (·.label = s) with
  | some f => .ok f
  | none => .error (.unsupportedFormat s)

/-- What a command is told; what is absent is left to the configuration and the defaults. -/
structure Overrides where
  project : Option Path := none
  output : Option String := none
  designSystemVersion : Option String := none
  accessibility : Option Bool := none
  parallel : Option Bool := none
  verbose : Option Bool := none
  deriving DecidableEq, Repr

/-- The settings that a command works with. -/
structure Settings where
  project : Path
  /-- The configuration file that was read, if any. -/
  configPath : Option Path
  verbose : Bool
  includes : List String
  excludes : List String
  accessRules : List String
  /-- Whether accessibility is checked. -/
  accessibility : Bool
  designSystemVersion : String
  catalog : Option Path
  output : OutputFormat
  /-- Whether files may be worked on at the same time. -/
  parallel : Bool
  labelProximity : Nat
  limits : ExtractOptions
  thresholds : Thresholds

namespace Settings

/-- The bounds with those of the configuration. -/
def mergeLimits (l : Option LimitSettings) : ExtractOptions :=
  let defaults : ExtractOptions := {}
  match l with
  | none => defaults
  | some l => { defaults with
      maxBytes := l.maxFileBytes.getD defaults.maxBytes
      maxSites := l.maxSites.getD defaults.maxSites
      maxMillis := l.maxFileMillis.getD defaults.maxMillis }

/-- The thresholds with those of the configuration. -/
def mergeThresholds (t : Option ThresholdSettings) : Thresholds :=
  let defaults : Thresholds := {}
  match t with
  | none => defaults
  | some t => {
      reviewBelowScore := t.reviewBelowScore.getD defaults.reviewBelowScore
      issuesAbove := t.issuesAbove.getD defaults.issuesAbove }

/-- The patterns to include; a configuration with none means the default ones. -/
def mergeIncludes : Option (List String) → List String
  | none => defaultIncludes
  | some [] => defaultIncludes
  | some patterns => patterns

/-- Merges what a command is told with a configuration. `root` is the directory of the
configuration, from which its catalog is seen. -/
def merge (o : Overrides) (root : Path) (configPath : Option Path) (c : ProjectConfig) :
    Except AuditError Settings :=
  match OutputFormat.ofLabel ((o.output.or c.output).getD OutputFormat.human.label) with
  | .error e => .error e
  | .ok output => .ok {
      project := o.project.getD ⟨"."⟩
      configPath
      verbose := (o.verbose.or c.verbose).getD false
      includes := mergeIncludes c.includePatterns
      excludes := c.excludePatterns.getD defaultExcludes
      accessRules := c.accessibilityRules.getD defaultAccessRules
      accessibility := o.accessibility.getD true
      designSystemVersion := (o.designSystemVersion.or c.designSystemVersion).getD "latest"
      -- A catalog is named as seen from the configuration that names it.
      catalog := c.catalog.map fun p => ((configPath.bind Path.parent?).getD root).join ⟨p⟩
      output
      parallel := (o.parallel.or c.parallel).getD true
      labelProximity := c.labelProximityLines.getD 3
      limits := mergeLimits c.limits
      thresholds := mergeThresholds c.thresholds }

/-- The settings for what a command is told. -/
def resolve {m : Type → Type} [Monad m] (fs : FileAccess m) (o : Overrides) :
    m (Except AuditError Settings) := do
  let root ← configRoot fs (o.project.getD ⟨"."⟩)
  match ← loadConfig fs root with
  | .error e => return .error e
  | .ok none => return merge o root none {}
  | .ok (some (path, config)) => return merge o root (some path) config

end Settings

end ComponentAudit
