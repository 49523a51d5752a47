import ComponentAudit.Catalog.Name
import ComponentAudit.Script.ObjectLiteral
import ComponentAudit.Site.Basic

/-!
# Calls that create elements

Elements are also created by calls such as `h('va-alert', { status: 'info' })`. The first argument
names the element, in kebab case when it is quoted, in either case when it is an identifier; an
object literal as the second argument holds its props. The arguments are scanned like other code
afterwards, so nested calls are found on their own.
-/

namespace ComponentAudit

/-- The functions whose first argument names the element to create. -/
def elementFactories : List (List Char) :=
  ["h", "createElement", "React.createElement", "jsx", "jsxs", "_jsx", "_jsxs"].map String.toList

/-- The element that the first argument names, and the text after it. A quoted name must be closed
and already in kebab case. -/
def calledElement? (marker : List Char) (args : List Char) :
    Option (List Char × List Char) :=
  match Script.skipSpace args with
  | [] => none
  | c :: s =>
    if c = '\'' || c = '"' then
      let n := Script.quotedLength c s
      let name := s.take (n - 1)
      if n ≠ 0 && (s.take n).getLast? = some c && canonicalName? marker name = some name then
        some (name, s.drop n)
      else none
    else if Script.isIdentStart c then
      some ((c :: s).takeWhile Script.isIdentChar, (c :: s).dropWhile Script.isIdentChar)
    else none

/-- The body of the object literal that follows as the next argument. -/
def nextObject? (rest : List Char) : Option (List Char) :=
  match Script.skipSpace rest with
  | ',' :: s =>
    match Script.skipSpace s with
    | '\x7b' :: s => (Script.closeLength? '\x7b' s).map s.take
    | _ => none
  | _ => none

/-- The site with the props of an object literal. -/
def Site.applyObject? (s : Site) (body : List Char) : Option Site :=
  (Script.readObject? body).map fun o =>
    { s with props := s.props.insertAll o.entries, spread := s.spread || o.spread }

/-- The arguments after an opening parenthesis and the place just after the closing one; without a
closing one both go to the end of the text. `place` is where the text begins. -/
def callArguments (place : Nat) (text : List Char) : List Char × Nat :=
  match Script.closeLength? '(' text with
  | some n => (text.take n, place + n + 1)
  | none => (text, place + text.length)

/-- The site of a call that starts at `start`, when the text at `place`, after the name of the
function, goes on with arguments that name a component. -/
def callSite (settings : ScanSettings) (count start place : Nat) (text : List Char) :
    Except ExtractError (Option Site) :=
  match Script.skipSpace text with
  | '(' :: s =>
    let (args, stop) := callArguments (place + Script.spaceLength text + 1) s
    match calledElement? settings.marker args with
    | none => .ok none
    | some (tag, rest) =>
      match canonicalName? settings.marker tag with
      | none => .ok none
      | some name =>
        match newSite settings count tag name start with
        | .error e => .error e
        | .ok site =>
          -- Anything but an object literal says nothing about the props.
          match nextObject? rest with
          | none => .ok (some (site.endingAt stop))
          | some body =>
            match (site.endingAt stop).applyObject? body with
            | none => .error .splitCharacter
            | some site => .ok (some site)
  | _ => .ok none

end ComponentAudit
