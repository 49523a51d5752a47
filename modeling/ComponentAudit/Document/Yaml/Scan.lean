import ComponentAudit.Document.Yaml.Block
import ComponentAudit.Document.Yaml.Quoted
import ComponentAudit.Document.Yaml.Token

/-!
# Scanning YAML

Cuts a text into tokens. Indentation opens and closes blocks, which is told by tokens of their own.
That something is a key is known only when its colon is found, so the scanner remembers where a key
may have begun, on each level of brackets one, and puts the tokens of the key there afterwards. Such
a key must stand on one line with its colon and be no longer than 1024 characters.
-/

namespace ComponentAudit.Yaml

/-- A place where a key may have begun. -/
structure KeyStart where
  /-- How many tokens were there before it. -/
  tokens : Nat
  line : Nat
  column : Nat
  /-- Nothing but a key can stand here. -/
  required : Bool
  deriving DecidableEq, Repr

/-- The largest number of characters from the start of a key to its colon. -/
def maxKeyLength : Nat := 1024

/-- What the scanner knows of the text that it has read. -/
structure Scanner where
  place : Place
  /-- The tokens so far, last first. -/
  tokens : List Token := []
  /-- The column of the innermost block, -1 if there is none. -/
  indent : Int := -1
  /-- The columns of the blocks around it, innermost first. -/
  outer : List Int := []
  /-- Where a key may have begun on this level of brackets. -/
  key : Option KeyStart := none
  /-- Where keys may have begun on the levels around it, innermost first. -/
  outerKeys : List (Option KeyStart) := []
  /-- Whether a key may begin at the place. -/
  keyAllowed : Bool := true

namespace Scanner

/-- Whether the place is inside brackets. -/
def flow (sc : Scanner) : Bool := !sc.outerKeys.isEmpty

/-- Adds a token that ends at a place. -/
def emit (sc : Scanner) (token : Token) (place : Place) : Scanner :=
  { sc with tokens := token :: sc.tokens, place }

/-- Adds a token of so many characters. -/
def emitMark (sc : Scanner) (token : Token) (length : Nat) : Scanner :=
  sc.emit token (sc.place.skip length)

/-! ### Keys -/

/-- Forgets that a key may have begun, which must not have been required. -/
def dropKey? (sc : Scanner) : Option Scanner :=
  if sc.key.any (·.required) then none else some { sc with key := none }

/-- Remembers that a key may begin at the place. -/
def saveKey? (sc : Scanner) : Option Scanner :=
  if sc.keyAllowed then
    sc.dropKey?.map fun sc => { sc with
      key := some {
        tokens := sc.tokens.length, line := sc.place.line, column := sc.place.column
        required := !sc.flow && sc.indent = sc.place.column } }
  else some sc

/-- Whether the start of a key is too far from the place. -/
def isStale (sc : Scanner) (k : KeyStart) : Bool :=
  k.line < sc.place.line || k.column + maxKeyLength < sc.place.column

/-- Forgets the starts of keys that are too far, none of which must have been required. -/
def dropStaleKeys? (sc : Scanner) : Option Scanner :=
  let isLost := fun k : KeyStart => sc.isStale k && k.required
  if (sc.key :: sc.outerKeys).any fun k => k.any isLost then none
  else
    let keep := fun k : Option KeyStart => k.filter fun k => !sc.isStale k
    some { sc with key := keep sc.key, outerKeys := sc.outerKeys.map keep }

/-! ### Blocks -/

/-- Opens a block in a column, unless one is open there or the place is inside brackets. Its token
goes in front of the last `count` tokens. -/
def openBlock (sc : Scanner) (column : Nat) (token : Token) (count : Nat) : Scanner :=
  if !sc.flow && sc.indent < column then
    { sc with
      tokens := sc.tokens.take count ++ token :: sc.tokens.drop count
      indent := column
      outer := sc.indent :: sc.outer }
  else sc

/-- Closes the blocks that stand further right than a column, given those around the innermost. -/
def closeBlocks (column : Int) (sc : Scanner) : (outer : List Int) → Scanner
  | [] => sc
  | indent :: outer =>
    if column < sc.indent then
      closeBlocks column { sc with tokens := .blockEnd :: sc.tokens, indent, outer } outer
    else sc

/-- Closes the blocks that stand further right than a column. Inside brackets there are none. -/
def leaveBlocks (sc : Scanner) (column : Int) : Scanner :=
  if sc.flow then sc else sc.closeBlocks column sc.outer

/-! ### Tokens -/

/-- Ends all blocks and adds what begins at the start of a line and belongs to none. -/
def atTop? (sc : Scanner) : Option Scanner :=
  (sc.leaveBlocks (-1)).dropKey?.map fun sc => { sc with keyAllowed := false }

/-- An opening bracket. -/
def openFlow? (sc : Scanner) (token : Token) : Option Scanner :=
  sc.saveKey?.map fun sc =>
    let outerKeys := sc.key :: sc.outerKeys
    { sc with outerKeys, key := none, keyAllowed := true }.emitMark token 1

/-- A closing bracket, of which there may be too many. -/
def closeFlow? (sc : Scanner) (token : Token) : Option Scanner :=
  sc.dropKey?.map fun sc =>
    let sc := match sc.outerKeys with
      | [] => sc
      | key :: outerKeys => { sc with key, outerKeys }
    { sc with keyAllowed := false }.emitMark token 1

/-- A comma. -/
def comma? (sc : Scanner) : Option Scanner :=
  sc.dropKey?.map fun sc => { sc with keyAllowed := true }.emitMark .comma 1

/-- A dash in front of an item. Outside of brackets it may open a list. -/
def item? (sc : Scanner) : Option Scanner :=
  if !sc.flow && !sc.keyAllowed then none
  else
    -- A dash is refused where a key had to begin.
    (sc.openBlock sc.place.column .blockListStart 0).dropKey?.map fun sc =>
      { sc with keyAllowed := true }.emitMark .item 1

/-- A question mark in front of a key. Outside of brackets it may open a table. -/
def explicitKey? (sc : Scanner) : Option Scanner :=
  if !sc.flow && !sc.keyAllowed then none
  else
    (sc.openBlock sc.place.column .blockTableStart 0).dropKey?.map fun sc =>
      { sc with keyAllowed := !sc.flow }.emitMark .key 1

/-- A colon. If a key has begun, its token and that of a table that it opens go in front of it. -/
def value? (sc : Scanner) : Option Scanner :=
  match sc.key with
  | some k =>
    -- So many tokens came since the key began.
    let count := sc.tokens.length - k.tokens
    let sc := { sc with
      tokens := sc.tokens.take count ++ Token.key :: sc.tokens.drop count
      key := none
      keyAllowed := false }
    some ((sc.openBlock k.column .blockTableStart (count + 1)).emitMark .value 1)
  | none =>
    if !sc.flow && !sc.keyAllowed then none
    else
      let sc := sc.openBlock sc.place.column .blockTableStart 0
      some ({ sc with keyAllowed := !sc.flow }.emitMark .value 1)

/-- A token that may begin a key, with the place behind it. -/
def keyPart? (sc : Scanner) (read : Place → Option (Token × Place)) : Option Scanner :=
  sc.saveKey?.bind fun sc =>
    (read sc.place).map fun (token, place) => { sc with keyAllowed := false }.emit token place

/-- A plain or quoted scalar. -/
def scalar? (sc : Scanner) (style : ScalarStyle) (read : Place → Option Scanned) :
    Option Scanner :=
  sc.saveKey?.bind fun sc =>
    (read sc.place).map fun r =>
      { sc with keyAllowed := r.newLine }.emit (.scalar style (String.ofList r.text)) r.after

/-- A block scalar. -/
def blockScalar? (sc : Scanner) (style : ScalarStyle) : Option Scanner :=
  sc.dropKey?.bind fun sc =>
    (block? sc.indent sc.place).map fun r =>
      { sc with keyAllowed := true }.emit (.scalar style (String.ofList r.text)) r.after

/-- A directive, which stands at the start of a line. -/
def directiveToken? (sc : Scanner) : Option Scanner :=
  sc.atTop?.bind fun sc => (directive? sc.place).map fun (token, place) => sc.emit token place

/-- A document mark. -/
def documentMark? (sc : Scanner) (token : Token) : Option Scanner :=
  sc.atTop?.map fun sc => sc.emitMark token 3

/-- The token that begins with a character at the place. -/
def token? (sc : Scanner) (c : Char) (s : List Char) : Option Scanner :=
  let atStart := sc.place.column = 0
  let endsHere := sc.flow || atGap s
  if atStart && c = '%' then sc.directiveToken?
  else if atStart && beginsWithDocumentMark (c :: s) then
    sc.documentMark? (if c = '-' then .documentStart else .documentEnd)
  else match c with
    | '[' => sc.openFlow? .flowListStart
    | '\x7b' => sc.openFlow? .flowTableStart
    | ']' => sc.closeFlow? .flowListEnd
    | '\x7d' => sc.closeFlow? .flowTableEnd
    | ',' => sc.comma?
    | '*' => sc.keyPart? fun p => (anchorName? p).map fun (name, p) => (.alias name, p)
    | '&' => sc.keyPart? fun p => (anchorName? p).map fun (name, p) => (.anchor name, p)
    | '!' => sc.keyPart? (tag? sc.flow)
    | '\'' => sc.scalar? .quoted quoted?
    | '"' => sc.scalar? .quoted quoted?
    | c =>
      if c = '-' && atGap s then sc.item?
      else if c = '?' && endsHere then sc.explicitKey?
      else if c = ':' && endsHere then sc.value?
      else if c = '|' && !sc.flow then sc.blockScalar? .literal
      else if c = '>' && !sc.flow then sc.blockScalar? .folded
      else if beginsPlain sc.flow (c :: s) then
        sc.scalar? .plain (plain? ⟨sc.flow, sc.indent + 1⟩)
      else none

/-- Goes to the next token: passes over space and comments, forgets keys that have become too long
and closes the blocks that end here. No more than `fuel` lines are passed over. -/
def advance? (fuel : Nat) (sc : Scanner) : Option Scanner :=
  let (place, broken) := sc.place.skipSpace (sc.flow || !sc.keyAllowed) sc.flow fuel
  let sc := { sc with place, keyAllowed := sc.keyAllowed || (broken && !sc.flow) }
  sc.dropStaleKeys?.map fun sc => sc.leaveBlocks sc.place.column

/-- Reads the tokens to the end of the text; each of them takes a character at least. -/
def run? : (fuel : Nat) → Scanner → Option Scanner
  | 0, _ => none
  | fuel + 1, sc =>
    (sc.advance? (fuel + 1)).bind fun sc =>
      match sc.place.rest with
      | [] => sc.atTop?
      | c :: s => (sc.token? c s).bind (run? fuel)

end Scanner

/-- The tokens of a text, if it holds no other characters than those allowed. -/
def tokens? (text : List Char) : Option (List Token) :=
  if text.all isAllowed then
    (Scanner.run? (text.length + 1) { place := ⟨uniformBreaks text, 0, 0⟩ }).map fun sc =>
      sc.tokens.reverse
  else none

end ComponentAudit.Yaml
