import ComponentAudit.Decimal.Reading
import ComponentAudit.Document.Yaml.Place
import ComponentAudit.Text.Find

/-!
# Tokens of YAML

What the scanner of a YAML text finds, and those tokens that are names: anchors, aliases, tags and
directives. Their readers give a token with the place behind it.
-/

namespace ComponentAudit.Yaml

/-- How a scalar is written. -/
inductive ScalarStyle where
  | plain
  | quoted
  | literal
  | folded
  deriving DecidableEq, Repr

/-- A token. Blocks have no brackets, so where they begin and end is told by tokens of their own. -/
inductive Token where
  /-- The version of YAML that the document is written in. -/
  | version (major minor : Nat)
  /-- What a tag handle stands for. -/
  | tagHandle (handle expansion : String)
  | documentStart
  | documentEnd
  | blockListStart
  | blockTableStart
  | blockEnd
  | flowListStart
  | flowListEnd
  | flowTableStart
  | flowTableEnd
  /-- The dash in front of an item of a block list. -/
  | item
  | comma
  /-- The start of a key, by a question mark or because a colon follows it. -/
  | key
  /-- The colon in front of a value. -/
  | value
  | anchor (name : String)
  | alias (name : String)
  | tag (handle suffix : String)
  | scalar (style : ScalarStyle) (text : String)
  deriving DecidableEq, Repr

/-! ### Anchors and aliases -/

/-- What may stand directly behind the name of an anchor. -/
def endsAnchor (s : List Char) : Bool :=
  atGap s || s.head?.any "?:,]\x7d%@\x60".toList.contains

/-- The name of an anchor or alias, whose mark stands at the place. -/
def anchorName? (p : Place) : Option (String × Place) :=
  let p := p.skip 1
  let name := p.rest.takeWhile isNameChar
  let after := p.skip name.length
  if name ≠ [] ∧ endsAnchor after.rest then some (String.ofList name, after) else none

/-! ### Tags -/

/-- A character of tags. Some that divide the contents of brackets only stand in tags that are given
in full. -/
def isTagChar (inFull : Bool) (c : Char) : Bool :=
  isNameChar c || ";/?:@&=+$.%!~*'()".toList.contains c || (inFull && ",[]".toList.contains c)

/-- The octet that is written as a percent sign with two hexadecimal digits. -/
def octet? : List Char → Option Nat
  | '%' :: a :: b :: _ => Decimal.radixValue? 16 [a, b]
  | _ => none

/-- The number of octets of a character whose first octet is given, zero if there is none. -/
def octetCount (n : Nat) : Nat :=
  if n < 0x80 then 1
  else if n < 0xC0 then 0
  else if n < 0xE0 then 2
  else if n < 0xF0 then 3
  else if n < 0xF8 then 4
  else 0

/-- The octets of a tag, last first. `pending` octets of an escaped character are still to come; one
character of `skip` has been read already. -/
def tagOctets? (inFull : Bool) (done : List Char) (pending skip : Nat) :
    List Char → Option (List Char × List Char)
  | [] => if pending = 0 then some (done, []) else none
  | c :: s =>
    match skip with
    | skip + 1 => tagOctets? inFull done pending skip s
    | 0 =>
      if pending = 0 && !isTagChar inFull c then some (done, c :: s)
      else if pending = 0 && c ≠ '%' then tagOctets? inFull (c :: done) 0 0 s
      else match octet? (c :: s) with
        | none => none
        | some n =>
          if pending = 0 then
            if octetCount n = 0 then none
            else tagOctets? inFull (Char.ofNat n :: done) (octetCount n - 1) 2 s
          else if n / 64 = 2 then tagOctets? inFull (Char.ofNat n :: done) (pending - 1) 2 s
          else none

/-- The rest of a tag behind what has been read of it, which must not be empty all in all. -/
def tagRest? (inFull : Bool) (head : List Char) (p : Place) : Option (String × Place) :=
  (tagOctets? inFull head.reverse 0 0 p.rest).bind fun (done, rest) =>
    if head = [] ∧ rest.length = p.rest.length then none
    else some (String.ofList done.reverse, p.skip (p.rest.length - rest.length))

/-- The handle at the place: an exclamation mark, a name and perhaps one more mark. -/
def tagHandle? (p : Place) : Option (String × Place) :=
  match p.rest with
  | '!' :: s =>
    let name := s.takeWhile isNameChar
    let length := if (s.drop name.length).head? = some '!' then name.length + 2 else name.length + 1
    some (String.ofList (p.rest.take length), p.skip length)
  | _ => none

/-- A handle that is closed by a second mark. -/
def isClosedHandle (handle : String) : Bool :=
  2 ≤ handle.length && handle.toList.getLast? = some '!'

/-- The tag at the place without what may follow it. -/
def tagBody? (p : Place) : Option (Token × Place) :=
  if (p.rest.drop 1).head? = some '<' then
    (tagRest? true [] (p.skip 2)).bind fun (suffix, p) =>
      if p.rest.head? = some '>' then some (.tag "" suffix, p.skip 1) else none
  else
    (tagHandle? p).bind fun (handle, p) =>
      if isClosedHandle handle then
        (tagRest? false [] p).map fun (suffix, p) => (.tag handle suffix, p)
      else if handle = "!" ∧ !p.rest.head?.any (isTagChar false) then
        -- The mark alone is the tag of a value that has none.
        some (.tag "" "!", p)
      else
        (tagRest? false (handle.toList.drop 1) p).map fun (suffix, p) => (.tag "!" suffix, p)

/-- The tag at the place. A gap must follow, or a comma inside brackets. -/
def tag? (flow : Bool) (p : Place) : Option (Token × Place) :=
  (tagBody? p).bind fun (token, p) =>
    if atGap p.rest || (flow && p.rest.head? = some ',') then some (token, p) else none

/-! ### Directives -/

/-- A part of a version, of nine digits at most. -/
def versionPart? (p : Place) : Option (Nat × Place) :=
  let digits := p.rest.takeWhile Char.isDigit
  if 1 ≤ digits.length ∧ digits.length ≤ 9 then
    some (Decimal.digitsValue digits, p.skip digits.length)
  else none

/-- What a directive about the version says. -/
def versionDirective? (p : Place) : Option (Token × Place) := do
  let (major, p) ← versionPart? (p.skipWhile isBlank)
  if p.rest.head? = some '.' then
    let (minor, p) ← versionPart? (p.skip 1)
    return (.version major minor, p)
  else none

/-- What a directive about a tag handle says. -/
def tagDirective? (p : Place) : Option (Token × Place) := do
  let (handle, p) ← tagHandle? (p.skipWhile isBlank)
  if (handle = "!" || isClosedHandle handle) && p.rest.head?.any isBlank then
    let (expansion, p) ← tagRest? true [] (p.skipWhile isBlank)
    if atGap p.rest then some (.tagHandle handle expansion, p) else none
  else none

/-- The directive at the place, and the place after its line. -/
def directive? (p : Place) : Option (Token × Place) := do
  let p := p.skip 1
  let name := p.rest.takeWhile isNameChar
  let p := p.skip name.length
  let (token, p) ←
    if !atGap p.rest then none
    else if name = "YAML".toList then versionDirective? p
    else if name = "TAG".toList then tagDirective? p
    else none
  let p ← p.finishLine?
  return (token, p)

end ComponentAudit.Yaml
