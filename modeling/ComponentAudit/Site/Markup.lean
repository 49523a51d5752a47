import ComponentAudit.Site.Script
import ComponentAudit.Text.Word

/-!
# Sites in template markup

The scan of markup: tags, comments, and the bodies of `script` and `style` elements, of which the
former is scanned as code. Open elements are kept innermost first. A closing tag closes the nearest
open element of its name, in whatever case it is written, with everything inside; one that matches
nothing is passed over.
-/

namespace ComponentAudit

/-! ### Open elements -/

/-- An element whose closing tag has not come yet, with the sites found in it, latest first. -/
structure OpenElement where
  tag : List Char
  site : Option Site
  found : List Site
  deriving DecidableEq

/-- All sites of an element, latest first, when it closes at the given place. -/
def OpenElement.close (stop : Nat) (e : OpenElement) : List Site :=
  e.found ++ (e.site.map (·.endingAt stop)).toList

/-- The state of a walk through markup. -/
structure MarkupState where
  /-- Open elements, innermost first. -/
  elements : List OpenElement := []
  /-- Sites outside of all open elements, latest first. -/
  found : List Site := []
  /-- Number of sites recorded so far. -/
  count : Nat := 0
  deriving DecidableEq

/-- Puts sites, latest first, into the innermost open element. -/
def MarkupState.place (st : MarkupState) (sites : List Site) : MarkupState :=
  match st.elements with
  | [] => { st with found := sites ++ st.found }
  | e :: elements => { st with elements := { e with found := sites ++ e.found } :: elements }

/-- Records new sites, latest first. -/
def MarkupState.record (st : MarkupState) (sites : List Site) : MarkupState :=
  { st.place sites with count := st.count + sites.length }

/-- Closes the open elements up to the nearest one of the given name, if there is one: their sites,
latest first, and the elements that stay open. -/
def closeNamed? (name : List Char) (stop : Nat) :
    List OpenElement → Option (List Site × List OpenElement)
  | [] => none
  | e :: elements =>
    if Text.equalIgnoringCase e.tag name then some (e.close stop, elements)
    else (closeNamed? name stop elements).map fun (sites, elements) =>
      (e.close stop ++ sites, elements)

/-- All sites, latest first, when the markup ends at the given place. -/
def MarkupState.finish (st : MarkupState) (stop : Nat) : List Site :=
  st.elements.flatMap (·.close stop) ++ st.found

/-! ### Steps -/

/-- Elements without content. -/
def voidElements : List (List Char) :=
  ["area", "base", "br", "col", "embed", "hr", "img", "input", "link", "meta", "source", "track",
    "wbr"].map String.toList

/-- Number of characters through the first `c`, or of the whole text. -/
def lengthThrough (c : Char) (s : List Char) : Nat :=
  match Text.findChar? c s with
  | some n => n + 1
  | none => s.length

/-- Number of characters before the first occurrence of the word, in whatever case, or of the whole
text. -/
def lengthBefore (word s : List Char) : Nat :=
  (Text.findWhere? (fun t => Text.equalIgnoringCase (t.take word.length) word) s).getD s.length

/-- The text after `start` and the blanks following it. -/
def stripWord? (start s : List Char) : Option (List Char) :=
  (Text.stripStart? start s).map (·.dropWhile Text.isBlank)

/-- The text begins with an attribute that declares a script with tags in it: `lang=tsx` or
`lang=jsx`, quoted or not. -/
def declaresTags (s : List Char) : Bool :=
  ((stripWord? "lang".toList s).bind (stripWord? ['='])).any fun value =>
    let value := match value with
      | '"' :: v => v
      | '\'' :: v => v
      | v => v
    ((Text.stripStart? "tsx".toList value).or (Text.stripStart? "jsx".toList value)).any
      fun rest => !rest.head?.any Text.isWord

/-- Whether a `script` tag declares that its code has tags in it. `inWord` tells whether the text
begins inside a word. -/
def hasTagLang (inWord : Bool) : List Char → Bool
  | [] => false
  | c :: s => (!inWord && declaresTags (c :: s)) || hasTagLang (Text.isWord c) s

/-- The outcome of a step: how many characters to pass over next, and the new state. -/
abbrev MarkupStep := Except ExtractError (Nat × MarkupState)

/-- The step at a closing tag whose `<` is at the given place; `rest` follows the slash. -/
def closingStep (st : MarkupState) (place : Nat) (rest : List Char) : Nat × MarkupState :=
  let nameStart := Script.skipSpace rest
  let name := nameStart.takeWhile isTagChar
  let skip := 1 + Script.spaceLength rest + name.length +
    lengthThrough '>' (nameStart.drop name.length)
  match closeNamed? name (place + 1 + skip) st.elements with
  | some (sites, elements) => (skip, { st with elements }.place sites)
  | none => (skip, st)

/-- The step at a start tag that has been read. `text` begins with its `<`, at the given place. -/
def tagStep (script : Bool → InnerScan) (st : MarkupState) (place : Nat) (text : List Char)
    (tag : Tag) : MarkupStep :=
  let length := tag.stop - place
  let body := text.drop length
  let lowerName := tag.name.map Text.lowerAscii
  if tag.selfClosing || voidElements.contains lowerName then
    .ok (length - 1, st.record (tag.sites tag.stop))
  else if lowerName = "script".toList then
    -- The body is code and no content, so the element itself has no extent.
    let bodyLength := lengthBefore "</script".toList body
    let st := st.record (tag.sites place)
    match script (hasTagLang false (text.take length)) st.count
        ⟨tag.stop, some '>', body.take bodyLength⟩ with
    | .error e => .error e
    | .ok sites =>
      .ok (length - 1 + bodyLength + lengthThrough '>' (body.drop bodyLength), st.record sites)
  else if lowerName = "style".toList then
    let bodyLength := lengthBefore "</style".toList body
    .ok (length - 1 + bodyLength + lengthThrough '>' (body.drop bodyLength),
      st.record (tag.sites place))
  else
    .ok (length - 1, { st with
      elements := ⟨tag.name, tag.site, tag.inner⟩ :: st.elements
      count := st.count + (tag.sites tag.stop).length })

/-- The step at a `<` at the given place, followed by `rest`. -/
def markupStep (settings : ScanSettings) (script : Bool → InnerScan) (st : MarkupState)
    (place : Nat) (rest : List Char) : MarkupStep :=
  match rest with
  | '!' :: '-' :: '-' :: s =>
    match Text.find? "-->".toList ('-' :: '-' :: s) with
    | some n => .ok (1 + n + 3, st)
    | none => .ok (rest.length, st)
  | '/' :: s => .ok (closingStep st place s)
  | '!' :: _ => .ok (lengthThrough '>' rest, st)
  | '?' :: _ => .ok (lengthThrough '>' rest, st)
  | _ =>
    match readTag settings .markup (fun _ _ => .ok []) st.count place rest with
    | .error e => .error e
    | .ok none => .ok (0, st)
    | .ok (some tag) => tagStep script st place ('<' :: rest) tag

/-! ### Walk -/

/-- Walks to the end of the markup; `skip` characters are still to be passed over. -/
def markupWalk (settings : ScanSettings) (script : Bool → InnerScan) (st : MarkupState)
    (place : Nat) : Nat → List Char → Found
  | _, [] => .ok (st.finish place)
  | skip + 1, _ :: rest => markupWalk settings script st (place + 1) skip rest
  | 0, c :: rest =>
    if c = '<' then
      match markupStep settings script st place rest with
      | .error e => .error e
      | .ok (skip, st) => markupWalk settings script st (place + 1) skip rest
    else markupWalk settings script st (place + 1) 0 rest

/-- Scans a text as markup for sites, latest first. The code of its `script` elements is scanned
with the given number of levels for attribute expressions. -/
def scanMarkup (settings : ScanSettings) (levels : Nat) (text : List Char) : Found :=
  markupWalk settings (scanScript settings levels) {} 0 0 text

end ComponentAudit
