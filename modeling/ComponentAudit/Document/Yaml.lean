import ComponentAudit.Document.Value
import ComponentAudit.Document.Yaml.Scan

/-!
# YAML documents

Reads a YAML text that holds one document. The tokens of the text are read into a tree: blocks and
brackets into lists and tables, scalars with the type that a tag declares. An alias stands for the
value that was marked with its name last. A text without content is an empty scalar.

Nested values are read with a fuel that the number of tokens bounds.
-/

namespace ComponentAudit.Yaml

/-- The tokens that are left, and what names stand for. -/
structure Source where
  tokens : List Token
  /-- The values that are marked with anchors, last first. -/
  anchors : List (String × Document) := []
  /-- What tag handles stand for. -/
  handles : List (String × String) := []

/-- A reader of what the tokens begin with. -/
abbrev NodeReader := Source → Option (Document × Source)

/-- The value that stands where nothing is written. -/
def absent : Document := .plain none ""

/-- The table with the given fields. If a key is no scalar, nothing can expect the table. -/
def tableOf (fields : List (Document × Document)) : Document :=
  match fields.mapM fun (k, v) => k.text?.map fun key => (key, v) with
  | some fields => .table fields
  | none => .other

/-! ### Properties -/

/-- What stands in front of a value: an anchor and a tag, each of which may be left out. -/
structure Properties where
  anchor : Option String := none
  tag : Option String := none

/-- The tag with its handle written out, if the handle is known. -/
def Source.expand? (src : Source) (handle suffix : String) : Option String :=
  if handle = "" then some suffix
  else (src.handles.lookup handle).map (· ++ suffix)

/-- The anchor and the tag in front of a value, in either order. -/
def properties? (src : Source) : Option (Properties × Source) :=
  match src.tokens with
  | .anchor a :: .tag h t :: rest =>
    (src.expand? h t).map fun tag => (⟨some a, some tag⟩, { src with tokens := rest })
  | .anchor a :: rest => some (⟨some a, none⟩, { src with tokens := rest })
  | .tag h t :: .anchor a :: rest =>
    (src.expand? h t).map fun tag => (⟨some a, some tag⟩, { src with tokens := rest })
  | .tag h t :: rest =>
    (src.expand? h t).map fun tag => (⟨none, some tag⟩, { src with tokens := rest })
  | _ => some ({}, src)

/-- The type that a tag declares. -/
def typeOfTag (tag : String) : ScalarType :=
  if tag = "tag:yaml.org,2002:null" then .null
  else if tag = "tag:yaml.org,2002:bool" then .bool
  else if tag = "tag:yaml.org,2002:int" then .int
  else if tag = "tag:yaml.org,2002:float" then .float
  else .other

/-- The value of a scalar. Quoted and folded ones are texts whatever their tag says, and the tag of
values that have none says nothing. -/
def scalarValue (style : ScalarStyle) (tag : Option String) (text : String) : Document :=
  let type := (tag.filter (· ≠ "!")).map typeOfTag
  match style, type with
  | .plain, type => .plain type text
  | .literal, some type => .literal type text
  | _, _ => .string text

/-- The value of a scalar that is left out behind its properties; without any it must not be. -/
def Properties.value? (p : Properties) : Option Document :=
  if p.anchor.isSome || p.tag.isSome then some (.plain (p.tag.map typeOfTag) "") else none

/-- Reads a value with its properties. While a value is read, an alias to it stands for something
that nothing expects. -/
def anchored? (anchor : Option String) (read : NodeReader) (src : Source) :
    Option (Document × Source) :=
  match anchor with
  | none => read src
  | some name =>
    let count := src.anchors.length
    (read { src with anchors := (name, .other) :: src.anchors }).map fun (value, src) =>
      -- Anchors inside the value stand in front of its own, which keeps its place.
      let newer := src.anchors.length - (count + 1)
      (value, { src with anchors := src.anchors.set newer (name, value) })

/-! ### Values -/

/-- Reads a value unless the tokens begin with one that ends it; then nothing is written. -/
def unless? (ends : Token → Bool) (read : NodeReader) : NodeReader := fun src =>
  if src.tokens.head?.any ends then some (absent, src) else read src

/-- The tokens after a comma between the contents of brackets, which the first of them does not
have. -/
def afterComma? (first : Bool) (closing : Token) (src : Source) : Option Source :=
  match src.tokens with
  | [] => none
  | token :: rest =>
    if first || token = closing then some src
    else if token = .comma then some { src with tokens := rest }
    else none

mutual

/-- The value that the tokens begin with. Blocks may stand outside of brackets only; a list of a
block may also be written without opening one, directly under a key. -/
def node? (block underKey : Bool) : (fuel : Nat) → NodeReader
  | 0, _ => none
  | fuel + 1, src =>
    match src.tokens with
    | .alias name :: rest =>
      (src.anchors.lookup name).map fun value => (value, { src with tokens := rest })
    | _ =>
      (properties? src).bind fun (props, src) =>
        anchored? props.anchor (fun src =>
          let inner : Source := { src with tokens := src.tokens.tail }
          let leftOut := props.value?.map fun value => (value, src)
          match src.tokens.head? with
          | some (.scalar style text) => some (scalarValue style props.tag text, inner)
          | some .flowListStart => flowItems? true [] fuel inner
          | some .flowTableStart => flowFields? true [] fuel inner
          | some .blockListStart => if block then blockItems? [] fuel inner else leftOut
          | some .blockTableStart => if block then blockFields? [] fuel inner else leftOut
          | some .item => if underKey then openItems? [] fuel src else leftOut
          | _ => leftOut) src

/-- The items of a block list. -/
def blockItems? (done : List Document) : (fuel : Nat) → NodeReader
  | 0, _ => none
  | fuel + 1, src =>
    match src.tokens with
    | .blockEnd :: rest => some (.list .strict done.reverse, { src with tokens := rest })
    | .item :: rest =>
      (unless? [Token.item, .blockEnd].contains (node? true false fuel)
        { src with tokens := rest }).bind fun (v, src) => blockItems? (v :: done) fuel src
    | _ => none

/-- The items of a list directly under a key, which ends with the first other token. -/
def openItems? (done : List Document) : (fuel : Nat) → NodeReader
  | 0, _ => none
  | fuel + 1, src =>
    match src.tokens with
    | .item :: rest =>
      (unless? [Token.item, .key, .value, .blockEnd].contains (node? true false fuel)
        { src with tokens := rest }).bind fun (v, src) => openItems? (v :: done) fuel src
    | _ => some (.list .strict done.reverse, src)

/-- The fields of a block table. -/
def blockFields? (done : List (Document × Document)) : (fuel : Nat) → NodeReader
  | 0, _ => none
  | fuel + 1, src =>
    match src.tokens with
    | .blockEnd :: rest => some (tableOf done.reverse, { src with tokens := rest })
    | .key :: rest =>
      let part := unless? [Token.key, .value, .blockEnd].contains (node? true true fuel)
      (part { src with tokens := rest }).bind fun (k, src) =>
        let value : Option (Document × Source) := match src.tokens with
          | .value :: rest => part { src with tokens := rest }
          | _ => some (absent, src)
        value.bind fun (v, src) => blockFields? ((k, v) :: done) fuel src
    | _ => none

/-- The items of a list in brackets. -/
def flowItems? (first : Bool) (done : List Document) : (fuel : Nat) → NodeReader
  | 0, _ => none
  | fuel + 1, src =>
    (afterComma? first .flowListEnd src).bind fun src =>
      match src.tokens with
      | .flowListEnd :: rest => some (.list .strict done.reverse, { src with tokens := rest })
      | .key :: rest =>
        (flowPair? fuel { src with tokens := rest }).bind fun (v, src) =>
          flowItems? false (v :: done) fuel src
      | _ =>
        (node? false false fuel src).bind fun (v, src) => flowItems? false (v :: done) fuel src

/-- A table of one field without braces, as an item of a list in brackets. If its key is left out,
the token that shows this is passed over. -/
def flowPair? : (fuel : Nat) → NodeReader
  | 0, _ => none
  | fuel + 1, src =>
    let key : Option (Document × Source) :=
      if src.tokens.head?.any [Token.value, .comma, .flowListEnd].contains then
        some (absent, { src with tokens := src.tokens.tail })
      else node? false false fuel src
    key.bind fun (k, src) =>
      let value : Option (Document × Source) := match src.tokens with
        | .value :: rest =>
          unless? [Token.comma, .flowListEnd].contains (node? false false fuel)
            { src with tokens := rest }
        | _ => some (absent, src)
      value.map fun (v, src) => (tableOf [(k, v)], src)

/-- The fields of a table in braces. What is not marked as a key is one without a value. -/
def flowFields? (first : Bool) (done : List (Document × Document)) : (fuel : Nat) → NodeReader
  | 0, _ => none
  | fuel + 1, src =>
    (afterComma? first .flowTableEnd src).bind fun src =>
      match src.tokens with
      | .flowTableEnd :: rest => some (tableOf done.reverse, { src with tokens := rest })
      | .key :: rest =>
        (unless? [Token.value, .comma, .flowTableEnd].contains (node? false false fuel)
          { src with tokens := rest }).bind fun (k, src) =>
          let value : Option (Document × Source) := match src.tokens with
            | .value :: rest =>
              unless? [Token.comma, .flowTableEnd].contains (node? false false fuel)
                { src with tokens := rest }
            | _ => some (absent, src)
          value.bind fun (v, src) => flowFields? false ((k, v) :: done) fuel src
      | _ =>
        (node? false false fuel src).bind fun (k, src) =>
          flowFields? false ((k, absent) :: done) fuel src

end

/-! ### Documents -/

/-- The tag handles that are known without a directive. -/
def commonHandles : List (String × String) := [("!", "!"), ("!!", "tag:yaml.org,2002:")]

/-- The tokens after the directives of a document. There may be one about the version, which must be
1.1 or 1.2, and one for each tag handle. -/
def directives? (versioned : Bool) (handles : List (String × String)) :
    List Token → Option (List (String × String) × List Token)
  | .version major minor :: rest =>
    if versioned || major ≠ 1 || !(minor = 1 || minor = 2) then none
    else directives? true handles rest
  | .tagHandle handle expansion :: rest =>
    if (handles.lookup handle).isSome then none
    else directives? versioned ((handle, expansion) :: handles) rest
  | rest => some (handles ++ commonHandles, rest)

/-- A token that stands between documents. -/
def Token.isBoundary : Token → Bool
  | .version _ _ => true
  | .tagHandle _ _ => true
  | .documentStart => true
  | .documentEnd => true
  | _ => false

/-- The value of the first document and the tokens after it. A document that has directives begins
with its mark. -/
def firstDocument? (tokens : List Token) : Option (Document × List Token) :=
  let fuel := 2 * tokens.length + 2
  let content : Source → Option (Document × List Token) := fun src =>
    (node? true false fuel src).map fun (v, src) => (v, src.tokens)
  match tokens with
  | [] => some (absent, [])
  | token :: _ =>
    if token.isBoundary && token ≠ .documentEnd then
      (directives? false [] tokens).bind fun (handles, rest) =>
        match rest with
        | .documentStart :: rest =>
          if rest.head?.all Token.isBoundary then some (absent, rest)
          else content { tokens := rest, handles }
        | _ => none
    else content { tokens, handles := commonHandles }

/-- Reads a text with one document. Nothing but marks of its end may follow it. -/
def read? (text : String) : Option Document :=
  (tokens? text.toList).bind fun tokens =>
    (firstDocument? tokens).bind fun (value, rest) =>
      if rest.all (· = .documentEnd) then some value else none

end ComponentAudit.Yaml
