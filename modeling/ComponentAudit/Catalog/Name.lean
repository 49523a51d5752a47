import ComponentAudit.Text.Find

/-!
# Component names

A catalog marks its components by a *marker*, such as `va-`, at the start of the kebab-case name.
In code the same component may be written in Pascal case, `VaTextInput` for `va-text-input`.
`canonicalName?` sends both spellings to the kebab-case one and refuses everything else.
-/

namespace ComponentAudit

/-- A word with its first ASCII letter in upper case. -/
def capitalize : List Char → List Char
  | [] => []
  | c :: s => Text.upperAscii c :: s

/-- The marker as it begins a name in Pascal case: `va-` becomes `Va`. -/
def pascalMarker (marker : List Char) : List Char :=
  (Text.splitAt '-' marker).flatMap capitalize

/-- The characters of a kebab-case name. -/
def isKebabChar (c : Char) : Bool := c.isLower || c.isDigit || c = '-'

/-- What may follow the marker in a kebab-case name: a lower-case letter, then lower-case letters,
digits and dashes. -/
def isKebab : List Char → Bool
  | [] => false
  | c :: s => c.isLower && s.all isKebabChar

/-- What may follow the marker in a Pascal-case name: an upper-case letter, then letters and
digits. -/
def isPascal : List Char → Bool
  | [] => false
  | c :: s => c.isUpper && s.all Char.isAlphanum

/-- Every upper-case letter becomes a dash and its lower-case letter. -/
def dashed (s : List Char) : List Char :=
  s.flatMap fun c => if c.isUpper then ['-', Text.lowerAscii c] else [c]

/-- A Pascal-case word in kebab case: the first letter only changes case. -/
def kebab : List Char → List Char
  | [] => []
  | c :: s => Text.lowerAscii c :: dashed s

/-- The kebab-case catalog name of an identifier as written, when it carries the marker in either
spelling: `va-text-input` and `VaTextInput` give `va-text-input`, while `Variable`, `va-Button`
and `vaButton` are no component names. -/
def canonicalName? (marker raw : List Char) : Option (List Char) :=
  match Text.stripStart? marker raw with
  | some rest => if isKebab rest then some raw else none
  | none =>
    match Text.stripStart? (pascalMarker marker) raw with
    | some rest => if isPascal rest then some (marker ++ kebab rest) else none
    | none => none

/-- Catalog names of identifiers given as strings. -/
def canonicalNameOf? (marker raw : String) : Option String :=
  (canonicalName? marker.toList raw.toList).map String.ofList

end ComponentAudit
