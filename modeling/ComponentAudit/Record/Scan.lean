import ComponentAudit.Catalog.Resolve
import ComponentAudit.Record.Usage
import ComponentAudit.Scan.Report

/-!
# Records of scans, reports and catalogs

The JSON forms in which results are printed. Fields come in a fixed order, tables in name order.
-/

namespace ComponentAudit

/-! ### Scans -/

/-- The JSON form of a summary. -/
def ScanSummary.toJson (s : ScanSummary) : Json :=
  .object [
    ("totalComponents", .nat s.totalComponents),
    ("compliantComponents", .nat s.compliantComponents),
    ("issuesFound", .nat s.issuesFound),
    ("coveragePercentage", .float s.coveragePercentage)]

/-- The JSON form of a warning. -/
def ScanWarning.toJson (w : ScanWarning) : Json :=
  .object [("file", .string w.file), ("message", .string w.message)]

/-- The JSON form of a scan. -/
def ScanResult.toJson (r : ScanResult) : Json :=
  .object [
    ("projectPath", .string r.projectPath),
    ("scannedFiles", .strings r.scannedFiles),
    ("components", .array (r.components.map Usage.toJson)),
    ("summary", r.summary.toJson),
    ("warnings", .array (r.warnings.map ScanWarning.toJson)),
    ("timestamp", .string r.timestamp)]

/-! ### Reports -/

/-- The JSON form of the counts by severity. -/
def SeverityCounts.toJson (c : SeverityCounts) : Json :=
  .object [("error", .nat c.error), ("warning", .nat c.warning), ("info", .nat c.info)]

/-- The JSON form of a report. -/
def Report.toJson (r : Report) : Json :=
  .object [
    ("overview", .object [
      ("projectName", .string r.overview.projectName),
      ("scanDate", .string r.overview.scanDate),
      ("totalFiles", .nat r.overview.totalFiles),
      ("totalComponents", .nat r.overview.totalComponents),
      ("complianceScore", .float r.overview.complianceScore)]),
    ("components", .array (r.components.map Usage.toJson)),
    ("issues", .array (r.issues.map Issue.toJson)),
    ("severityCounts", r.severityCounts.toJson),
    ("ruleCounts", .ofTable .nat r.ruleCounts),
    ("recommendations", .strings r.recommendations)]

/-! ### Catalogs -/

/-- The JSON form of a deprecated prop. -/
def DeprecatedProp.toJson (d : DeprecatedProp) : Json :=
  .object [
    ("prop", .string d.prop),
    ("replacement", .optional .string d.replacement),
    ("note", .optional .string d.note)]

/-- The JSON form of accessibility traits. -/
def AccessTraits.toJson (t : AccessTraits) : Json :=
  .object [
    ("interactive", .bool t.interactive),
    ("name_props", .strings t.nameProps),
    ("image", .bool t.image),
    ("alt_props", .strings t.altProps),
    ("decorative_props", .strings t.decorativeProps),
    ("state_props", .strings t.stateProps),
    ("text_props", .strings t.textProps),
    ("provides_label", .bool t.providesLabel),
    ("label_props", .strings t.labelProps)]

/-- The JSON form of a component. -/
def ComponentSpec.toJson (c : ComponentSpec) : Json :=
  .object [
    ("name", .string c.name),
    ("description", .optional .string c.description),
    ("deprecated", .bool c.deprecated),
    ("replacement", .optional .string c.replacement),
    ("required", .strings c.required),
    ("deprecated_props", .array (c.deprecatedProps.map DeprecatedProp.toJson)),
    ("enums", .ofTable .strings c.enums),
    ("exclusive", .array (c.exclusive.map fun p => .strings [p.1, p.2])),
    ("a11y", c.access.toJson)]

/-- The JSON form of an accessibility vocabulary. -/
def AccessVocabulary.toJson (v : AccessVocabulary) : Json :=
  .object [
    ("rule_sets", .ofTable .strings v.ruleSets),
    ("name_props", .strings v.nameProps),
    ("pointer_events", .strings v.pointerEvents),
    ("keyboard_events", .strings v.keyboardEvents)]

/-- The JSON form of a catalog. -/
def Catalog.toJson (c : Catalog) : Json :=
  .object [
    ("name", .string c.name),
    ("prefix", .string c.marker),
    ("version", .string c.version),
    ("ruleSets", .ofTable .strings c.access.ruleSets),
    ("components", .array (c.componentList.map ComponentSpec.toJson))]

end ComponentAudit
