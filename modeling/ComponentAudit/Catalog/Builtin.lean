import ComponentAudit.Catalog.Spec

/-!
# The builtin catalog

The catalog of the design system that is used when a project names none. The second version is
based on the first.
-/

namespace ComponentAudit.Catalog

/-- Components of the first version. -/
def firstComponents : List ComponentSpec := [
    { name := "va-accordion"
      description := "Expandable sections of related content."
      exclusive := [("open-single", "multi")] },
    { name := "va-accordion-item"
      description := "One section of an accordion."
      required := ["header"] },
    { name := "va-alert"
      description := "Status message with optional headline."
      required := ["status"]
      enums := .ofList [("status", ["info", "success", "warning", "error", "continue"])]
      access := { stateProps := ["status"], textProps := ["headline", "text", "slim"] } },
    { name := "va-banner"
      description := "Site-wide announcement."
      required := ["headline"]
      enums := .ofList [("type", ["info", "warning", "error"])] },
    { name := "va-breadcrumbs"
      description := "Secondary navigation trail."
      access := { interactive := true, nameProps := ["label"] } },
    { name := "va-button"
      description := "Action button."
      enums := .ofList [("type", ["button", "submit", "reset"])]
      exclusive := [("back", "continue"), ("secondary", "primary-alternate")]
      access := { interactive := true, nameProps := ["text", "label"] } },
    { name := "va-button-pair"
      description := "Primary and secondary button pair."
      exclusive := [("continue", "update")] },
    { name := "va-checkbox"
      description := "Single checkbox."
      required := ["label"]
      access := { interactive := true, nameProps := ["label"] } },
    { name := "va-checkbox-group"
      description := "Group of checkboxes sharing a legend."
      required := ["label"]
      access := { providesLabel := true, labelProps := ["label"] } },
    { name := "va-date"
      description := "Memorable date input."
      required := ["label"]
      access := { interactive := true, nameProps := ["label"] } },
    { name := "va-file-input"
      description := "File upload control."
      required := ["label"]
      access := { interactive := true, nameProps := ["label"] } },
    { name := "va-icon"
      description := "Decorative or meaningful icon."
      required := ["icon"]
      enums := .ofList [("size", ["3", "4", "5", "6", "7", "8", "9"])]
      access := { image := true, altProps := ["srtext"], decorativeProps := ["aria-hidden"] } },
    { name := "va-link"
      description := "Styled hyperlink."
      required := ["href", "text"]
      exclusive := [("active", "download")]
      access := { interactive := true, nameProps := ["text", "label"] } },
    { name := "va-loading-indicator"
      description := "Spinner with an accessible message."
      required := ["message"] },
    { name := "va-modal"
      description := "Dialog overlay."
      required := ["modal-title"]
      access := { interactive := true, nameProps := ["modal-title", "large"] } },
    { name := "va-pagination"
      description := "Page navigation."
      required := ["page", "pages"]
      access := { interactive := true, nameProps := ["aria-label"] } },
    { name := "va-promo-banner"
      description := "Promotional banner."
      required := ["href"] },
    { name := "va-radio"
      description := "Group of radio options sharing a legend."
      required := ["label"]
      access := { providesLabel := true, labelProps := ["label"] } },
    { name := "va-radio-option"
      description := "One radio option."
      required := ["value"]
      access := { interactive := true, nameProps := ["label"] } },
    { name := "va-segmented-progress-bar"
      description := "Multi-step progress indicator."
      required := ["current", "total"]
      access := { image := true, altProps := ["label", "header-aria-label"] } },
    { name := "va-select"
      description := "Dropdown select."
      required := ["label"]
      access := { interactive := true, nameProps := ["label"] } },
    { name := "va-telephone"
      description := "Formatted telephone link."
      required := ["contact"]
      exclusive := [("not-clickable", "sms")] },
    { name := "va-text-input"
      description := "Single-line text input."
      required := ["label"]
      enums := .ofList [("inputmode", ["decimal", "email", "numeric", "search", "tel", "text",
        "url"]), ("type", ["email", "number", "search", "tel", "text", "url"])]
      access := { interactive := true, nameProps := ["label"] } },
    { name := "va-textarea"
      description := "Multi-line text input."
      required := ["label"]
      access := { interactive := true, nameProps := ["label"] } }]

/-- Components that the second version adds or replaces. -/
def secondComponents : List ComponentSpec := [
    { name := "va-alert"
      description := "Status message with optional headline."
      required := ["status"]
      deprecatedProps := [{ prop := "background-only", replacement := "slim" }]
      enums := .ofList [("status", ["info", "success", "warning", "error", "continue"])]
      access := { stateProps := ["status"], textProps := ["headline", "text", "slim"] } },
    { name := "va-button"
      description := "Action button."
      deprecatedProps := [{ prop := "primary-alternate", replacement := "secondary" }]
      enums := .ofList [("type", ["button", "submit", "reset"])]
      exclusive := [("back", "continue"), ("secondary", "primary-alternate")]
      access := { interactive := true, nameProps := ["text", "label"] } },
    { name := "va-link-action"
      description := "Call-to-action link."
      required := ["href", "text"]
      enums := .ofList [("type", ["primary", "secondary", "reverse"])]
      access := { interactive := true, nameProps := ["text", "label"] } },
    { name := "va-promo-banner"
      description := "Promotional banner."
      deprecated := true
      replacement := "va-banner"
      required := ["href"] },
    { name := "va-tag-status"
      description := "Short status tag."
      required := ["text"]
      enums := .ofList [("status", ["info", "success", "warning", "error"])]
      access := { stateProps := ["status"], textProps := ["text"] } }]

/-- The vocabulary of accessibility checks. -/
def vocabulary : AccessVocabulary where
  ruleSets := .ofList [("wcag2a", ["missing-accessible-name", "missing-alt-text",
    "color-only-state", "keyboard-inaccessible"]), ("wcag2aa", ["empty-accessible-name"])]
  nameProps := ["aria-label", "aria-labelledby"]
  pointerEvents := ["onmouseover", "onmouseenter", "onmouseleave", "onmousedown", "onmouseup",
    "ondblclick", "onhover"]
  keyboardEvents := ["onclick", "onkeydown", "onkeyup", "onkeypress", "onfocus", "onblur", "href"]

/-- The builtin catalog. -/
def builtin : CatalogFile where
  name := "VA Design System"
  marker := "va-"
  defaultVersion := "v2"
  versions := .ofList [
    ("v1", { components := firstComponents }),
    ("v2", { base := "v1", components := secondComponents })]
  access := vocabulary

end ComponentAudit.Catalog
