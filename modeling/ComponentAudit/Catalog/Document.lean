import ComponentAudit.Catalog.Spec
import ComponentAudit.Document.Value

/-!
# Catalogs in documents

Reads a catalog file from a document. Absent fields have their defaults, and fields that a catalog
does not know are passed over.
-/

namespace ComponentAudit

open Document

/-- A list of texts. -/
def texts? : Document → Option (List String) := list? text?

/-- Reads a deprecated prop. -/
def DeprecatedProp.ofDocument? (d : Document) : Option DeprecatedProp := do
  let f ← d.record? ["prop", "replacement", "note"]
  return {
    prop := ← required? text? "prop" f
    replacement := ← maybe? text? "replacement" f
    note := ← maybe? text? "note" f }

/-- Reads the accessibility traits of a component. -/
def AccessTraits.ofDocument? (d : Document) : Option AccessTraits := do
  let f ← d.record? ["interactive", "name_props", "image", "alt_props", "decorative_props",
    "state_props", "text_props", "provides_label", "label_props"]
  return {
    interactive := ← defaulted? bool? false "interactive" f
    nameProps := ← defaulted? texts? [] "name_props" f
    image := ← defaulted? bool? false "image" f
    altProps := ← defaulted? texts? [] "alt_props" f
    decorativeProps := ← defaulted? texts? [] "decorative_props" f
    stateProps := ← defaulted? texts? [] "state_props" f
    textProps := ← defaulted? texts? [] "text_props" f
    providesLabel := ← defaulted? bool? false "provides_label" f
    labelProps := ← defaulted? texts? [] "label_props" f }

/-- Reads a component. -/
def ComponentSpec.ofDocument? (d : Document) : Option ComponentSpec := do
  let f ← d.record? ["name", "description", "deprecated", "replacement", "required",
    "deprecated_props", "enums", "exclusive", "a11y"]
  return {
    name := ← Document.required? text? "name" f
    description := ← maybe? text? "description" f
    deprecated := ← defaulted? bool? false "deprecated" f
    replacement := ← maybe? text? "replacement" f
    required := ← defaulted? texts? [] "required" f
    deprecatedProps := ← defaulted? (list? DeprecatedProp.ofDocument?) [] "deprecated_props" f
    enums := ← defaulted? (table? texts?) {} "enums" f
    exclusive := ← defaulted? (list? (pair? text?)) [] "exclusive" f
    access := ← defaulted? AccessTraits.ofDocument? {} "a11y" f }

/-- Reads a version. -/
def VersionSpec.ofDocument? (d : Document) : Option VersionSpec := do
  let f ← d.record? ["extends", "components"]
  return {
    base := ← maybe? text? "extends" f
    components := ← defaulted? (list? ComponentSpec.ofDocument?) [] "components" f }

/-- Reads the accessibility vocabulary. -/
def AccessVocabulary.ofDocument? (d : Document) : Option AccessVocabulary := do
  let f ← d.record? ["rule_sets", "name_props", "pointer_events", "keyboard_events"]
  return {
    ruleSets := ← defaulted? (table? texts?) {} "rule_sets" f
    nameProps := ← defaulted? texts? [] "name_props" f
    pointerEvents := ← defaulted? texts? [] "pointer_events" f
    keyboardEvents := ← defaulted? texts? [] "keyboard_events" f }

/-- Reads a catalog file. -/
def CatalogFile.ofDocument? (d : Document) : Option CatalogFile := do
  let f ← d.record? ["name", "prefix", "default_version", "versions", "accessibility"]
  return {
    name := ← maybe? text? "name" f
    marker := ← defaulted? text? "va-" "prefix" f
    defaultVersion := ← defaulted? text? "latest" "default_version" f
    versions := ← defaulted? (table? VersionSpec.ofDocument?) {} "versions" f
    access := ← defaulted? AccessVocabulary.ofDocument? {} "accessibility" f }

end ComponentAudit
