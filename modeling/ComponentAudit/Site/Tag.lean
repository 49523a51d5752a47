import ComponentAudit.Catalog.Name
import ComponentAudit.Site.Attribute

/-!
# Start tags

`readTag` reads a start tag after its `<`. A tag whose name is a component name gives a site with
the props of its attributes. In script code the expressions among the attribute values are regions
of their own, which an inner scan searches for more sites.

The text is no start tag when its attributes do not come to a `>`. Then nothing is reported,
neither the site nor what was found in its attributes.
-/

namespace ComponentAudit

/-- A character of a tag name. -/
def isTagChar (c : Char) : Bool := Script.isIdentChar c || c = '-' || c = '.' || c = ':'

/-- A start tag. -/
structure Tag where
  /-- Empty for a fragment `<>`. -/
  name : List Char
  /-- The site, if the name is a component name; its end is still to be found. -/
  site : Option Site
  /-- Sites in the attribute expressions, latest first. -/
  inner : List Site
  selfClosing : Bool
  /-- Place just after the `>`. -/
  stop : Nat
  deriving DecidableEq

/-- The sites of the tag, latest first, when its element ends at the given place. -/
def Tag.sites (t : Tag) (stop : Nat) : List Site :=
  t.inner ++ (t.site.map (·.endingAt stop)).toList

/-- What stands at some place among the attributes of a tag. -/
inductive TagPart where
  /-- The end of the tag and its length. -/
  | close (selfClosing : Bool) (length : Nat)
  /-- Nothing that belongs into a tag. -/
  | broken
  /-- Something without meaning; so many characters follow its first. -/
  | pass (skip : Nat)
  /-- A spread; so many characters follow its first. -/
  | spread (skip : Nat)
  | attribute (a : Attribute)
  deriving DecidableEq, Repr

/-- What the character `c`, followed by `rest`, begins among the attributes of a tag. -/
def tagPart (flavor : Flavor) (c : Char) (rest : List Char) : TagPart :=
  if Text.isSpace c then .pass 0
  else match if flavor = .jsx then Script.commentLength? (c :: rest) else none with
    | some n => .pass (n - 1)
    | none =>
      if c = '/' && rest.head? = some '>' then .close true 2
      else if c = '>' then .close false 1
      else if c = '\x7b' then
        match Script.closeLength? c rest with
        | none => .broken
        | some n =>
          if Text.startsWith ['.', '.', '.'] (Text.trimStart (rest.take n)) then .spread (n + 1)
          else .pass (n + 1)
      else if isAttrStart c then
        match readAttribute? flavor (c :: rest) with
        | some a => .attribute a
        | none => .broken
      else .broken

/-- What has been read of a tag. -/
structure TagState where
  site : Option Site
  /-- Sites in the attribute expressions, latest first. -/
  inner : List Site
  /-- Number of sites recorded so far in the text. -/
  count : Nat
  deriving DecidableEq

/-- Adds an attribute that begins at the given place. -/
def TagState.addAttribute (st : TagState) (flavor : Flavor) (scan : InnerScan) (place : Nat)
    (a : Attribute) : Except ExtractError TagState :=
  -- In template markup the expressions are left alone.
  let found : Found := match flavor, a.value with
    | .jsx, .expr e => scan st.count ⟨place + a.valueStart, some '\x7b', e⟩
    | _, _ => .ok []
  match found with
  | .error e => .error e
  | .ok found =>
    let st := { st with inner := found ++ st.inner, count := st.count + found.length }
    match st.site with
    | none => .ok st
    | some s =>
      match s.apply? flavor a with
      | none => .error .splitCharacter
      | some s => .ok { st with site := some s }

/-- Reads the attributes up to the end of the tag, from the given place on. `skip` characters are
still to be passed over. -/
def tagWalk (flavor : Flavor) (scan : InnerScan) (name : List Char) (st : TagState) (place : Nat) :
    Nat → List Char → Except ExtractError (Option Tag)
  | _, [] => .ok none
  | skip + 1, _ :: rest => tagWalk flavor scan name st (place + 1) skip rest
  | 0, c :: rest =>
    match tagPart flavor c rest with
    | .close selfClosing length =>
      .ok (some ⟨name, st.site, st.inner, selfClosing, place + length⟩)
    | .broken => .ok none
    | .pass skip => tagWalk flavor scan name st (place + 1) skip rest
    | .spread skip =>
      tagWalk flavor scan name
        { st with site := st.site.map fun s => { s with spread := true } } (place + 1) skip rest
    | .attribute a =>
      match st.addAttribute flavor scan place a with
      | .error e => .error e
      | .ok st => tagWalk flavor scan name st (place + 1) (a.length - 1) rest

/-- Whether the text after a tag name lets the name end there. -/
def endsTagName : List Char → Bool
  | [] => true
  | c :: _ => c = '/' || c = '>' || Text.isSpace c

/-- The site of a tag whose name is a component name. -/
def tagSite (settings : ScanSettings) (count : Nat) (name : List Char) (start : Nat) :
    Except ExtractError (Option Site) :=
  match canonicalName? settings.marker name with
  | none => .ok none
  | some canonical => (newSite settings count name canonical start).map some

/-- The start tag whose `<` is at the place `start` and is followed by the text, if it is one. -/
def readTag (settings : ScanSettings) (flavor : Flavor) (scan : InnerScan) (count start : Nat)
    (text : List Char) : Except ExtractError (Option Tag) :=
  match text with
  | [] => .ok none
  | c :: _ =>
    -- A fragment has neither name nor attributes.
    if c = '>' && flavor = .jsx then .ok (some ⟨[], none, [], false, start + 2⟩)
    else if !c.isAlpha then .ok none
    else
      let name := text.takeWhile isTagChar
      let rest := text.drop name.length
      if !endsTagName rest then .ok none
      else match tagSite settings count name start with
        | .error e => .error e
        | .ok site =>
          tagWalk flavor scan name ⟨site, [], count + site.toList.length⟩
            (start + 1 + name.length) 0 rest

end ComponentAudit
