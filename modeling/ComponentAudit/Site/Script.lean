import ComponentAudit.Site.Call
import ComponentAudit.Site.Tag

/-!
# Sites in script code

The scan of a region of code, with tags in it where the dialect has them. Code and the children of
elements alternate: a tag where an expression may start opens an element, braces among its children
go back to code, and so on. What is open is a stack of frames, innermost first; each frame holds
the sites found in it, latest first, and hands them on when it closes.

The walk takes one character at a time. A token is passed over by counting its characters down, so
every step goes forward. Attribute expressions are scanned as regions of their own, one level
deeper each time, and the levels are counted down too.
-/

namespace ComponentAudit

/-! ### Frames -/

/-- What the walk is inside of. -/
inductive Frame where
  /-- Code with so many open braces. -/
  | code (braces : Nat) (found : List Site)
  /-- The children of an element. -/
  | children (tag : List Char) (site : Option Site) (found : List Site)
  deriving DecidableEq

/-- All sites of a frame, latest first, when it closes at the given place. -/
def Frame.close (stop : Nat) : Frame → List Site
  | .code _ found => found
  | .children _ site found => found ++ (site.map (·.endingAt stop)).toList

/-- The frame with more sites, latest first. -/
def Frame.record (sites : List Site) : Frame → Frame
  | .code braces found => .code braces (sites ++ found)
  | .children tag site found => .children tag site (sites ++ found)

/-- Records sites in the innermost frame. -/
def recordSites (sites : List Site) : List Frame → List Frame
  | [] => [.code 0 sites]
  | f :: frames => f.record sites :: frames

/-- All sites of the open frames, latest first, when everything ends at the given place. -/
def closeAll (stop : Nat) (frames : List Frame) : List Site := frames.flatMap (·.close stop)

/-- Closes the elements up to the nearest one of the given name, if there is one before the
nearest code: their sites, latest first, and the frames that stay open. -/
def closeElements? (name : List Char) (stop : Nat) :
    List Frame → Option (List Site × List Frame)
  | .children tag site found :: frames =>
    let own := (Frame.children tag site found).close stop
    if tag = name then some (own, frames)
    else (closeElements? name stop frames).map fun (sites, frames) => (own ++ sites, frames)
  | _ => none

/-- An opening brace in code. -/
def openBrace : List Frame → List Frame
  | .code braces found :: frames => .code (braces + 1) found :: frames
  | frames => frames

/-- A closing brace in code: it closes an open brace, or else goes back to the children around the
code, and is ignored when there are none. -/
def closeBrace : List Frame → List Frame
  | .code (braces + 1) found :: frames => .code braces found :: frames
  | .code 0 found :: f :: frames => recordSites found (f :: frames)
  | frames => frames

/-! ### Steps -/

/-- The state of a walk through code. -/
structure ScriptState where
  frames : List Frame
  /-- Number of sites recorded so far in the text. -/
  count : Nat
  deriving DecidableEq

/-- What is the same all through the scan of a region. -/
structure ScriptScan where
  settings : ScanSettings
  /-- Whether tags are recognized. -/
  jsx : Bool
  /-- The scan of an attribute expression. -/
  scan : InnerScan
  /-- The character before the region. -/
  lead : Option Char

/-- The outcome of a step: how many characters to pass over next, and the new state. -/
abbrev ScriptStep := Except ExtractError (Nat × ScriptState)

/-- A start tag may follow `<`. -/
def tagMayStart (rest : List Char) : Bool := rest.head?.any fun c => c.isAlpha || c = '>'

/-- The step at a `<` that may open an element. -/
def openStep (s : ScriptScan) (st : ScriptState) (place : Nat) (rest : List Char) : ScriptStep :=
  match readTag s.settings .jsx s.scan st.count place rest with
  | .error e => .error e
  -- The scan goes on just after the `<`, and may find sites in what looked like attributes.
  | .ok none => .ok (0, st)
  | .ok (some tag) =>
    let count := st.count + (tag.sites tag.stop).length
    let frames :=
      if tag.selfClosing then recordSites (tag.sites tag.stop) st.frames
      else .children tag.name tag.site tag.inner :: st.frames
    .ok (tag.stop - (place + 1), { frames, count })

/-- The step at a `</`, where `rest` follows the `<`. A closing tag that closes nothing is passed
over, and one without its `>` is text. -/
def closeStep (st : ScriptState) (place : Nat) (rest : List Char) : Nat × ScriptState :=
  let afterSlash := rest.drop 1
  let nameStart := Script.skipSpace afterSlash
  let name := nameStart.takeWhile isTagChar
  let afterName := nameStart.drop name.length
  match Script.skipSpace afterName with
  | '>' :: _ =>
    let skip := 1 + Script.spaceLength afterSlash + name.length + Script.spaceLength afterName + 1
    match closeElements? name (place + 1 + skip) st.frames with
    | some (sites, frames) => (skip, { st with frames := recordSites sites frames })
    | none => (skip, st)
  | _ => (0, st)

/-- The step among the children of an element. -/
def childrenStep (s : ScriptScan) (st : ScriptState) (place : Nat) (c : Char) (rest : List Char) :
    ScriptStep :=
  if c = '\x7b' then .ok (0, { st with frames := .code 0 [] :: st.frames })
  else if c = '<' then
    if rest.head? = some '/' then .ok (closeStep st place rest) else openStep s st place rest
  else .ok (0, st)

/-- The step at an identifier: a call that creates an element is recorded, and the whole path of
the identifier is passed over. A member of something else is no such function. -/
def identStep (s : ScriptScan) (st : ScriptState) (place : Nat) (before : List Char) (c : Char)
    (rest : List Char) : ScriptStep :=
  let length := Script.pathLength (c :: rest)
  let skip := length - 1
  -- At the start of a region the character before it decides.
  if !elementFactories.contains ((c :: rest).take length) ||
      (before.head?.or s.lead) = some '.' then .ok (skip, st)
  else match callSite s.settings st.count place (place + length) ((c :: rest).drop length) with
    | .error e => .error e
    | .ok none => .ok (skip, st)
    | .ok (some site) =>
      .ok (skip, { frames := recordSites [site] st.frames, count := st.count + 1 })

/-- The step in code. -/
def scriptCodeStep (s : ScriptScan) (st : ScriptState) (place : Nat) (before : List Char)
    (c : Char) (rest : List Char) : ScriptStep :=
  match (Script.commentLength? (c :: rest)).or (Script.regexLength? before (c :: rest)) with
  | some n => .ok (n - 1, st)
  | none =>
    if c = '\'' || c = '"' then .ok (Script.quotedLength c rest, st)
    else if c = '`' then
      match Script.closeLength? c rest with
      | some n => .ok (n + 1, st)
      | none => .ok (rest.length, st)
    else if c = '\x7b' then .ok (0, { st with frames := openBrace st.frames })
    else if c = '\x7d' then .ok (0, { st with frames := closeBrace st.frames })
    else if c = '<' && s.jsx && tagMayStart rest && Script.expressionMayStart before then
      openStep s st place rest
    else if Script.isIdentStart c then identStep s st place before c rest
    else .ok (0, st)

/-- The step at the character `c`, which is at the given place after `before` and followed by
`rest`. -/
def scriptStep (s : ScriptScan) (st : ScriptState) (place : Nat) (before : List Char) (c : Char)
    (rest : List Char) : ScriptStep :=
  match st.frames with
  | .children _ _ _ :: _ => childrenStep s st place c rest
  | _ => scriptCodeStep s st place before c rest

/-! ### Walk -/

/-- Walks to the end of the region. `before` is what has been passed in the region, nearest first,
and `skip` characters are still to be passed over. -/
def scriptWalk (s : ScriptScan) (st : ScriptState) (place : Nat) (before : List Char) :
    Nat → List Char → Found
  | _, [] => .ok (closeAll place st.frames)
  | skip + 1, c :: rest => scriptWalk s st (place + 1) (c :: before) skip rest
  | 0, c :: rest =>
    match scriptStep s st place before c rest with
    | .error e => .error e
    | .ok (skip, st) => scriptWalk s st (place + 1) (c :: before) skip rest

/-- Scans a region with the given scan for attribute expressions. -/
def scanRegion (settings : ScanSettings) (jsx : Bool) (scan : InnerScan) (count : Nat)
    (region : Region) : Found :=
  scriptWalk ⟨settings, jsx, scan, region.lead⟩ ⟨[.code 0 []], count⟩ region.start [] 0
    region.chars

/-- Scans a region of script code for sites, latest first, when `count` sites are recorded already.
Attribute expressions are scanned inside each other down to the given number of levels. -/
def scanScript (settings : ScanSettings) : (levels : Nat) → (jsx : Bool) → InnerScan
  | 0, jsx => scanRegion settings jsx fun _ _ => .ok []
  | levels + 1, jsx => scanRegion settings jsx (scanScript settings levels true)

end ComponentAudit
