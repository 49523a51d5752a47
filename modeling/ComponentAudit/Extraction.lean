import ComponentAudit.Path.Basic
import ComponentAudit.Site.Effort
import ComponentAudit.Site.Parent

/-!
# Extraction

`extract` finds the usages of components in one source file. The extension of the file decides
between template markup, script code with tags and script code without. A text that mentions the
marker in neither spelling is not scanned at all.

Usages come in the order of their places. A text beyond the bounds gives an error, which
`extractOrNothing` takes for a file without usages. `extract` takes all the time that it needs;
`extractWithin` is given a clock and fails when one of its looks at the clock finds the time over.
-/

namespace ComponentAudit

/-- How a file is written, by its extension. -/
inductive Dialect where
  /-- Script code, with tags in it or not. -/
  | script (jsx : Bool)
  /-- Template markup. -/
  | template
  deriving DecidableEq, Repr

/-- The dialect of a file. -/
def Dialect.ofPath (p : Path) : Dialect :=
  let ext := String.ofList ((p.extension?.getD "").toList.map Text.lowerAscii)
  if ["vue", "html", "htm", "svelte"].contains ext then .template
  else if ["ts", "mts", "cts"].contains ext then .script false
  -- Whatever is not known otherwise is read as code with tags.
  else .script true

/-- Whether the text mentions the marker in either spelling. Without a mention there is no
component name in it. -/
def mentionsMarker (marker text : List Char) : Bool :=
  Text.contains marker text || Text.contains (pascalMarker marker) text

/-- Scans a text for sites, latest first, whether it mentions the marker or not. -/
def scanText (options : ExtractOptions) (dialect : Dialect) (text : List Char) : Found :=
  let settings := ⟨options.marker.toList, options.maxSites⟩
  match dialect with
  | .script jsx => scanScript settings options.maxDepth jsx 0 (Region.ofText text)
  | .template => scanMarkup settings options.maxDepth text

/-- The sites of a text in the order of their places. -/
def findSites (options : ExtractOptions) (dialect : Dialect) (text : List Char) :
    Except ExtractError (List Site) :=
  -- The size comes first, so that nothing else is looked at in a text that is too large.
  if options.maxBytes < Text.byteSize text then
    .error (.tooLarge (Text.byteSize text) options.maxBytes)
  else if text.contains '\x00' then .error .binary
  else if !mentionsMarker options.marker.toList text then .ok []
  else (scanText options dialect text).map fun found =>
    found.reverse.mergeSort fun a b => a.start ≤ b.start

/-- The usage at a site with the given position and parent. -/
def Site.toUsage (s : Site) (path : String) (position : Position) (parent : Option Nat) : Usage :=
  { componentName := s.name, tag := s.tag, filePath := path
    lineNumber := position.line, column := position.column
    props := s.props, spread := s.spread, parent }

/-- The usages at sites that are in the order of their places. -/
def usagesOf (text : List Char) (path : String) (sites : List Site) : List Usage :=
  List.zipWith (fun s (position, parent) => s.toUsage path position parent) sites
    ((positions text (sites.map (·.start))).zip (parents sites))

/-- The usages of components in a file, in the order of their places, whatever time that takes. -/
def extract (options : ExtractOptions) (path text : String) : Except ExtractError (List Usage) :=
  (findSites options (Dialect.ofPath ⟨path⟩) text.toList).map (usagesOf text.toList path)

/-! ### Limited time -/

/-- What the scan of a text spends. -/
def scanTextEffort (options : ExtractOptions) (dialect : Dialect) (text : List Char) : Effort :=
  let settings := ⟨options.marker.toList, options.maxSites⟩
  match dialect with
  | .script jsx => scanScriptEffort settings options.maxDepth jsx 0 (Region.ofText text) {}
  | .template => scanMarkupEffort settings options.maxDepth text {}

/-- How often an extraction looks at the clock. It does not before the text is scanned. -/
def looks (options : ExtractOptions) (dialect : Dialect) (text : List Char) : Nat :=
  if options.maxBytes < Text.byteSize text || text.contains '\x00' ||
      !mentionsMarker options.marker.toList text then 0
  else (scanTextEffort options dialect text).allLooks

/-- Whether the time for a file runs out: it is limited, and some look at the clock finds it
over. -/
def runsOut (options : ExtractOptions) (clock : Clock) (path text : String) : Bool :=
  options.maxMillis ≠ 0 &&
    (List.range (looks options (Dialect.ofPath ⟨path⟩) text.toList)).any clock

/-- As `extract`, within the time that the options allow. -/
def extractWithin (options : ExtractOptions) (clock : Clock) (path text : String) :
    Except ExtractError (List Usage) :=
  if runsOut options clock path text then .error (.timeout options.maxMillis)
  else extract options path text

/-- Without a limit no time runs out. -/
theorem runsOut_of_unlimited {options : ExtractOptions} (h : options.maxMillis = 0) (clock : Clock)
    (path text : String) : runsOut options clock path text = false := by
  rw [runsOut, h]
  rfl

/-- A clock that stands still leaves all the time. -/
@[simp]
theorem runsOut_still (options : ExtractOptions) (path text : String) :
    runsOut options .still path text = false := by
  have hstill : (List.range (looks options (Dialect.ofPath ⟨path⟩) text.toList)).any Clock.still =
      false := List.any_eq_false.2 fun _ _ => Bool.false_ne_true
  rw [runsOut, hstill, Bool.and_false]

/-- An extraction whose time runs out says so. -/
theorem extractWithin_of_runsOut {options : ExtractOptions} {clock : Clock} {path text : String}
    (h : runsOut options clock path text = true) :
    extractWithin options clock path text = .error (.timeout options.maxMillis) := if_pos h

/-- Any other is as it would be with all the time. -/
theorem extractWithin_of_inTime {options : ExtractOptions} {clock : Clock} {path text : String}
    (h : runsOut options clock path text = false) :
    extractWithin options clock path text = extract options path text :=
  if_neg (h ▸ Bool.false_ne_true)

/-- As `extractWithin`, but a text beyond the bounds counts as one without usages. A literal that
ends inside a character is an error here too. -/
def extractOrNothing (options : ExtractOptions) (clock : Clock) (path text : String) :
    Except ExtractError (List Usage) :=
  match extractWithin options clock path text with
  | .error .splitCharacter => .error .splitCharacter
  | .error _ => .ok []
  | .ok usages => .ok usages

end ComponentAudit
