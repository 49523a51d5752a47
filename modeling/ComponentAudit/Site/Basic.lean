import ComponentAudit.Usage.Basic

/-!
# Sites

A site is a place in a source text where a component is invoked, with the extent of the invocation.
Places count characters from the start of the text. Sites are found in *regions*, stretches of the
text that are scanned on their own, and within the limits of the scan.
-/

namespace ComponentAudit

/-- Why a file yields no usages. -/
inductive ExtractError where
  /-- The text has more bytes than allowed. -/
  | tooLarge (size limit : Nat)
  /-- The text holds a NUL character. -/
  | binary
  /-- More sites than allowed. -/
  | tooManySites (limit : Nat)
  /-- The scan takes more time than allowed, in milliseconds. -/
  | timeout (limit : Nat)
  /-- An unterminated string literal ends inside a character. -/
  | splitCharacter
  deriving DecidableEq, Repr

/-- The wording of an extraction error. -/
def ExtractError.message : ExtractError → String
  | .tooLarge size limit => s!"file is {size} bytes, above the {limit} byte limit"
  | .binary => "file looks binary (contains NUL bytes)"
  | .tooManySites limit => s!"more than {limit} invocation sites"
  | .timeout limit => s!"extraction exceeded {limit} ms"
  | .splitCharacter => "a string literal ends inside a character"

/-- The marker of component names and the bounds of a scan. -/
structure ExtractOptions where
  marker : String := "va-"
  /-- Largest size of a text in bytes. -/
  maxBytes : Nat := 2097152
  /-- Largest number of sites in a text. -/
  maxSites : Nat := 10000
  /-- Time allowed for the scan of a text in milliseconds; 0 is no limit. -/
  maxMillis : Nat := 2000
  /-- How deep attribute expressions are scanned inside each other. -/
  maxDepth : Nat := 8
  deriving DecidableEq, Repr

/-- The clock of one extraction: whether its time is over at each look, by the number of looks
before. -/
abbrev Clock := Nat → Bool

/-- The clock of an extraction that takes no time. -/
def Clock.still : Clock := fun _ => false

/-- One recognized invocation. -/
structure Site where
  /-- The identifier as written. -/
  tag : String
  /-- The catalog name. -/
  name : String
  /-- Place of the `<` or of the callee. -/
  start : Nat
  /-- Place just after the closing tag, the `/>` or the `)`. -/
  stop : Nat
  props : Props := {}
  spread : Bool := false
  deriving DecidableEq

/-- A stretch of a text. -/
structure Region where
  /-- Place of its first character. -/
  start : Nat
  /-- The character of the text just before it. -/
  lead : Option Char
  chars : List Char
  deriving DecidableEq, Repr

/-- The whole of a text. -/
def Region.ofText (text : List Char) : Region := ⟨0, none, text⟩

/-- What a scan needs to know besides the text. -/
structure ScanSettings where
  marker : List Char
  maxSites : Nat
  deriving DecidableEq, Repr

/-- Sites found in a region, latest first, or the reason why the scan stops. -/
abbrev Found := Except ExtractError (List Site)

/-- A scan of an inner region, given the number of sites recorded so far. -/
abbrev InnerScan := Nat → Region → Found

/-- A new site without props, when the number of sites recorded so far allows one more. -/
def newSite (settings : ScanSettings) (count : Nat) (tag name : List Char) (start : Nat) :
    Except ExtractError Site :=
  if settings.maxSites ≤ count then .error (.tooManySites settings.maxSites)
  else .ok { tag := String.ofList tag, name := String.ofList name, start, stop := start }

/-- A site that ends at the given place. -/
def Site.endingAt (s : Site) (stop : Nat) : Site := { s with stop }

end ComponentAudit
