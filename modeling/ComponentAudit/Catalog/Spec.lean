import ComponentAudit.NameTable

/-!
# Catalog files

A catalog file declares the components of a design system, version by version, and the vocabulary
of accessibility checks. A version may be based on another one and then replaces its components by
name.
-/

namespace ComponentAudit

/-- A prop that should no longer be used. -/
structure DeprecatedProp where
  prop : String
  replacement : Option String := none
  note : Option String := none
  deriving DecidableEq, Repr

/-- Accessibility traits of a component. -/
structure AccessTraits where
  /-- It needs an accessible name. -/
  interactive : Bool := false
  /-- Props that supply the accessible name. -/
  nameProps : List String := []
  /-- It shows an image that needs a text alternative. -/
  image : Bool := false
  altProps : List String := []
  /-- Props that mark the image as decorative. -/
  decorativeProps : List String := []
  /-- Props that convey a state by color. -/
  stateProps : List String := []
  /-- Props that convey the same state in text. -/
  textProps : List String := []
  /-- It labels the controls inside it or close after it. -/
  providesLabel : Bool := false
  labelProps : List String := []
  deriving DecidableEq, Repr

/-- What the catalog says about one component. -/
structure ComponentSpec where
  name : String
  description : Option String := none
  deprecated : Bool := false
  replacement : Option String := none
  required : List String := []
  deprecatedProps : List DeprecatedProp := []
  /-- The allowed literal values of props. -/
  enums : NameTable (List String) := {}
  /-- Pairs of props that exclude each other. -/
  exclusive : List (String × String) := []
  access : AccessTraits := {}
  deriving DecidableEq

/-- The vocabulary of accessibility checks of a whole catalog. -/
structure AccessVocabulary where
  /-- Rule families by the name of their set. -/
  ruleSets : NameTable (List String) := {}
  /-- Props that name every interactive component. -/
  nameProps : List String := []
  /-- Event props that only a pointer reaches. -/
  pointerEvents : List String := []
  /-- Event props that the keyboard reaches. -/
  keyboardEvents : List String := []
  deriving DecidableEq

/-- One version of a design system. -/
structure VersionSpec where
  /-- The version it is based on. -/
  base : Option String := none
  components : List ComponentSpec := []
  deriving DecidableEq

/-- A whole catalog file. -/
structure CatalogFile where
  name : Option String := none
  /-- What begins the name of every component. -/
  marker : String := "va-"
  /-- The version meant by `latest`, unless one is named so. -/
  defaultVersion : String := "latest"
  versions : NameTable VersionSpec := {}
  access : AccessVocabulary := {}
  deriving DecidableEq

end ComponentAudit
