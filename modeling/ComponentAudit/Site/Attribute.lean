import ComponentAudit.Script.Expression
import ComponentAudit.Script.Token
import ComponentAudit.Site.Basic

/-!
# Attributes

Attributes of start tags in the two flavors of markup: tags inside script code, whose values are
quoted texts or expressions in braces, and template markup, which also has unquoted values and
directives such as `:text`, `@click` and `v-if`.

`readAttribute?` reads one attribute from the text; `Site.apply?` says what it means for the props
of a site.
-/

namespace ComponentAudit

/-- The flavor of markup that a tag is written in. -/
inductive Flavor where
  /-- Tags inside script code. -/
  | jsx
  /-- Template markup. -/
  | markup
  deriving DecidableEq, Repr

/-- The value of an attribute as written. -/
inductive AttrValue where
  /-- There is none. -/
  | bare
  /-- A quoted or unquoted text. -/
  | text (s : List Char)
  /-- An expression in braces. -/
  | expr (e : List Char)
  deriving DecidableEq, Repr

/-- An attribute with its place relative to its first character. -/
structure Attribute where
  name : List Char
  value : AttrValue
  /-- Number of characters before the text of the value. -/
  valueStart : Nat
  /-- Number of characters in all. -/
  length : Nat
  deriving DecidableEq, Repr

/-! ### Reading -/

/-- A character that may begin the name of an attribute. -/
def isAttrStart (c : Char) : Bool := Script.isIdentStart c || c = ':' || c = '@' || c = '#'

/-- A character that may continue the name of an attribute. -/
def isAttrChar (c : Char) : Bool :=
  Script.isIdentChar c || c = '-' || c = '.' || c = ':' || c = '@' || c = '#'

/-- Length of an unquoted value: up to a separator or `>`. A slash just before `>` closes the tag
and is no part of it. -/
def unquotedLength (s : List Char) : Nat :=
  let value := s.takeWhile fun c => !Text.isSpace c && c ≠ '>'
  if value.getLast? = some '/' && (s.drop value.length).head? = some '>' then value.length - 1
  else value.length

/-- The value at the start of the text, the number of characters before its own text, and the
number of characters in all. -/
def readValue? (flavor : Flavor) : List Char → Option (AttrValue × Nat × Nat)
  | [] => none
  | c :: s =>
    if c = '"' || c = '\'' then
      (Text.findChar? c s).map fun n => (.text (s.take n), 1, n + 2)
    else if c = '\x7b' then
      (Script.closeLength? c s).map fun n => (.expr (s.take n), 1, n + 2)
    else match flavor with
      | .markup =>
        -- It may be empty, as in `<a b=>`.
        let n := unquotedLength (c :: s)
        some (.text ((c :: s).take n), 0, n)
      | .jsx => none

/-- The attribute at the start of the text. There is none when an `=` is not followed by a
value. -/
def readAttribute? (flavor : Flavor) (s : List Char) : Option Attribute :=
  let name := s.takeWhile isAttrChar
  let rest := s.drop name.length
  let gap := Script.spaceLength rest
  match rest.drop gap with
  | '=' :: value =>
    let lead := name.length + gap + 1 + Script.spaceLength value
    (readValue? flavor (Script.skipSpace value)).map fun (v, before, length) =>
      { name, value := v, valueStart := lead + before, length := lead + length }
  | _ => some { name, value := .bare, valueStart := name.length, length := name.length }

/-! ### Meaning -/

/-- What an attribute means for a site. -/
inductive AttrMeaning where
  | prop (key : List Char) (value : PropValue)
  /-- Any prop may be supplied. -/
  | spread
  | ignored
  deriving DecidableEq, Repr

/-- The value of an attribute that is taken as written: a bare attribute is `true`. -/
def plainValue? : AttrValue → Option PropValue
  | .bare => some (.bool true)
  | .text s => some (.string (String.ofList s))
  | .expr e => Script.classify e

/-- The value of an attribute whose text is an expression. -/
def boundValue? : AttrValue → Option PropValue
  | .bare => some .unresolved
  | .text e => Script.classify e
  | .expr e => Script.classify e

/-- The name of an event or prop without its modifiers: `click.prevent` is `click`. -/
def withoutModifiers (name : List Char) : List Char := name.takeWhile (· ≠ '.')

/-- The event that an attribute handles. -/
def eventName? (attr : List Char) : Option (List Char) :=
  Text.stripStart? ['@'] attr <|> Text.stripStart? "v-on:".toList attr <|>
    Text.stripStart? "on:".toList attr

/-- The prop that an attribute binds to an expression. -/
def boundName? (attr : List Char) : Option (List Char) :=
  Text.stripStart? [':'] attr <|> Text.stripStart? "v-bind:".toList attr

/-- Other directives: they set no prop. -/
def isDirective (attr : List Char) : Bool :=
  Text.startsWith "v-".toList attr || Text.startsWith ['#'] attr || attr.contains ':'

/-- The meaning of an attribute in template markup. -/
def markupMeaning? (attr : List Char) (value : AttrValue) : Option AttrMeaning :=
  -- Without a name it binds the keys of an object.
  if attr = "v-bind".toList then some .spread
  else match eventName? attr with
    | some event =>
      (boundValue? value).map (.prop ('o' :: 'n' :: withoutModifiers event))
    | none =>
      match boundName? attr with
      | some prop => (boundValue? value).map (.prop (withoutModifiers prop))
      | none =>
        if isDirective attr then some .ignored else (plainValue? value).map (.prop attr)

/-- The meaning of an attribute. There is none when its value is an unreadable literal. -/
def Attribute.meaning? (a : Attribute) : Flavor → Option AttrMeaning
  | .jsx => (plainValue? a.value).map (.prop a.name)
  | .markup => markupMeaning? a.name a.value

/-- The site with one more attribute; a prop given again is replaced. -/
def Site.apply? (s : Site) (flavor : Flavor) (a : Attribute) : Option Site :=
  (a.meaning? flavor).map fun
    | .prop key value => { s with props := s.props.insert (String.ofList key) value }
    | .spread => { s with spread := true }
    | .ignored => s

end ComponentAudit
