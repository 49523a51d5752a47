import ComponentAudit.Decimal.Reading

/-!
# Texts and keys of TOML

The smallest parts of a TOML document: blanks, comments, strings and keys. Readers take the text
from some place on and give what they read with the text after it. Escapes are those of TOML 1.1,
and line breaks inside long strings stay as they are written.
-/

namespace ComponentAudit.Toml

/-- A reader of the text from some place on. -/
abbrev Reader (α : Type) := List Char → Option (α × List Char)

/-! ### Blanks -/

/-- Blanks within a line. -/
def isBlank (c : Char) : Bool := c = ' ' || c = '\t'

/-- A control character, which neither texts nor comments may hold. -/
def isControl (c : Char) : Bool := (c.toNat < 0x20 && c ≠ '\t') || c = '\x7f'

/-- The text after the blanks. -/
def skipBlanks (s : List Char) : List Char := s.dropWhile isBlank

/-- The text after a comment, if it begins with one. A comment ends in front of a control character,
of which only a line break can go on. -/
def skipComment : List Char → List Char
  | '#' :: s => s.dropWhile fun c => !isControl c
  | s => s

/-- The text after a line break. -/
def afterBreak? : List Char → Option (List Char)
  | '\n' :: s => some s
  | '\r' :: '\n' :: s => some s
  | _ => none

/-- The text after blanks, comments and line breaks; `comment` tells that it begins in a comment. -/
def skipLinesFrom (comment : Bool) : List Char → List Char
  | [] => []
  | '\n' :: s => skipLinesFrom false s
  | '\r' :: '\n' :: s => skipLinesFrom false s
  | c :: s =>
    if comment then
      if isControl c then c :: s else skipLinesFrom true s
    else if c = '#' then skipLinesFrom true s
    else if isBlank c then skipLinesFrom false s
    else c :: s

/-- The text after blanks, comments and line breaks. -/
def skipLines (s : List Char) : List Char := skipLinesFrom false s

/-! ### Strings -/

/-- The character of a code point, if it is one. -/
def charOf? (n : Nat) : Option Char := if n.isValidChar then some (Char.ofNat n) else none

/-- A character given by so many hexadecimal digits, and their number and that of the letter before
them. -/
def hexChar? (count : Nat) (s : List Char) : Option (Char × Nat) :=
  if (s.take count).length = count then
    (Decimal.radixValue? 16 (s.take count)).bind fun n => (charOf? n).map fun c => (c, count + 1)
  else none

/-- The character that the text behind a backslash stands for, and how long that text is. -/
def escape? : List Char → Option (Char × Nat)
  | 'b' :: _ => some ('\x08', 1)
  | 't' :: _ => some ('\t', 1)
  | 'n' :: _ => some ('\n', 1)
  | 'f' :: _ => some ('\x0c', 1)
  | 'r' :: _ => some ('\r', 1)
  | 'e' :: _ => some ('\x1b', 1)
  | '"' :: _ => some ('"', 1)
  | '\\' :: _ => some ('\\', 1)
  | 'x' :: s => hexChar? 2 s
  | 'u' :: s => hexChar? 4 s
  | 'U' :: s => hexChar? 8 s
  | _ => none

/-- The rest of a text in double quotes. `skip` characters have been read already; `done` holds what
the text has so far, last character first. -/
def basicRest? (done : List Char) (skip : Nat) : Reader String
  | [] => none
  | c :: s =>
    match skip with
    | skip + 1 => basicRest? done skip s
    | 0 =>
      if c = '"' then some (String.ofList done.reverse, s)
      else if c = '\\' then
        match escape? s with
        | some (e, length) => basicRest? (e :: done) length s
        | none => none
      else if isControl c then none
      else basicRest? (c :: done) 0 s

/-- The rest of a text in double quotes. -/
def basicString? : Reader String := basicRest? [] 0

/-- The rest of a text in single quotes, which has no escapes. -/
def literalString? (s : List Char) : Option (String × List Char) :=
  let body := s.takeWhile fun c => c ≠ '\'' && !isControl c
  match s.drop body.length with
  | '\'' :: rest => some (String.ofList body, rest)
  | _ => none

/-- A line break with or without a carriage return begins with the character. -/
def beginsBreak (c : Char) (s : List Char) : Bool :=
  c = '\n' || (c = '\r' && s.head? = some '\n')

/-- The rest of a text in three quotes of a kind. Up to two quotes more may stand before the
closing ones. In double quotes a backslash at the end of a line takes the space after it away, which
is going on if `trimming` holds. -/
def longRest? (quote : Char) (done : List Char) (skip : Nat) (trimming : Bool) : Reader String
  | [] => none
  | c :: s =>
    match skip with
    | skip + 1 => longRest? quote done skip trimming s
    | 0 =>
      if trimming && (isBlank c || beginsBreak c s) then longRest? quote done 0 true s
      else if c = quote then
        -- All quotes at once, so that the last three of them close.
        let quotes := (c :: s).takeWhile (· = quote)
        if quotes.length < 3 then longRest? quote (quotes ++ done) (quotes.length - 1) false s
        else if quotes.length ≤ 5 then
          some (String.ofList (done.reverse ++ quotes.drop 3), (c :: s).drop quotes.length)
        else none
      else if c = '\\' && quote = '"' then
        if (afterBreak? (skipBlanks s)).isSome then longRest? quote done 0 true s
        else match escape? s with
          | some (e, length) => longRest? quote (e :: done) length false s
          | none => none
      else if isControl c && !beginsBreak c s then none
      else longRest? quote (c :: done) 0 false s

/-- The text without a line break at its start. -/
def dropFirstBreak (s : List Char) : List Char := (afterBreak? s).getD s

/-- The rest of a text in three quotes of a kind. A line break directly behind the opening ones does
not belong to it. -/
def longString? (quote : Char) (s : List Char) : Option (String × List Char) :=
  longRest? quote [] 0 false (dropFirstBreak s)

/-- The string at the start of the text. -/
def string? : Reader String
  | '"' :: '"' :: '"' :: r => longString? '"' r
  | '\'' :: '\'' :: '\'' :: r => longString? '\'' r
  | '"' :: r => basicString? r
  | '\'' :: r => literalString? r
  | _ => none

/-! ### Keys -/

/-- How deep a document may be nested, by brackets and by the parts of a key. -/
def maxNesting : Nat := 80

/-- A character of a bare key. -/
def isKeyChar (c : Char) : Bool := c.isAlphanum || c = '_' || c = '-'

/-- One part of a key: bare, or quoted on one line. -/
def keyPart? (s : List Char) : Option (String × List Char) :=
  match s with
  | '"' :: r => basicString? r
  | '\'' :: r => literalString? r
  | _ =>
    let part := s.takeWhile isKeyChar
    if part = [] then none else some (String.ofList part, s.drop part.length)

/-- A key of no more than `parts` parts with dots between them, and the text after the blanks behind
it. -/
def keyParts? : (parts : Nat) → Reader (List String)
  | 0, _ => none
  | parts + 1, s =>
    (keyPart? (skipBlanks s)).bind fun (part, s) =>
      match skipBlanks s with
      | '.' :: s => (keyParts? parts s).map fun (key, s) => (part :: key, s)
      | s => some ([part], s)

/-- The key at the start of the text. -/
def key? : Reader (List String) := keyParts? maxNesting

end ComponentAudit.Toml
