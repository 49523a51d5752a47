import ComponentAudit.Text.Blank
import ComponentAudit.Text.Find

/-!
# Tokens of script code

Lengths of the tokens that a scan passes over: identifiers, quoted strings, comments and regular
expression literals. Each function looks at the text from some place on and counts characters;
`take` and `drop` then cut the text.

Whether a slash opens a regular expression depends on the code before it. That code is given as a
list with the nearest character first, and only as far back as the region under scan reaches.
-/

namespace ComponentAudit.Script

/-! ### Identifiers and blanks -/

/-- A character that may begin an identifier. Every character beyond ASCII may. -/
def isIdentStart (c : Char) : Bool := c.isAlpha || c = '_' || c = '$' || 0x80 ≤ c.toNat

/-- A character that may continue an identifier. -/
def isIdentChar (c : Char) : Bool := isIdentStart c || c.isDigit

/-- Length of the identifier at the start of the text. -/
def identLength (s : List Char) : Nat := (s.takeWhile isIdentChar).length

/-- Length of the path `a.b.c` at the start of the text; a dot belongs to it only when an
identifier follows. -/
def pathLength : List Char → Nat
  | [] => 0
  | c :: s =>
    if isIdentChar c then pathLength s + 1
    else if c = '.' && s.head?.any isIdentStart then pathLength s + 1
    else 0

/-- Number of token separators at the start of the text. -/
def spaceLength (s : List Char) : Nat := (s.takeWhile Text.isSpace).length

/-- The text after the token separators at its start. -/
def skipSpace (s : List Char) : List Char := s.dropWhile Text.isSpace

/-! ### Strings and comments -/

/-- Length of what follows an opening quote, through the closing one. A line feed ends the string
before it, so that a stray apostrophe swallows no more than its line; a string may also run to the
end of the text. A backslash takes the next character with it. -/
def quotedLength (quote : Char) : List Char → Nat
  | [] => 0
  | ['\\'] => 1
  | '\\' :: _ :: s => quotedLength quote s + 2
  | c :: s => if c = '\n' then 0 else if c = quote then 1 else quotedLength quote s + 1

/-- Length of what follows the opening of a block comment, through the closing `*/` or to the end
of the text. -/
def blockCommentLength (s : List Char) : Nat :=
  match Text.find? ['*', '/'] s with
  | some n => n + 2
  | none => s.length

/-- Length of the comment at the start of the text, if one starts there. A line comment ends
before its line feed. -/
def commentLength? : List Char → Option Nat
  | '/' :: '/' :: s => some ((s.takeWhile (· ≠ '\n')).length + 2)
  | '/' :: '*' :: s => some (blockCommentLength s + 2)
  | _ => none

/-! ### Where an expression may start -/

/-- The keywords after which an expression begins. -/
def expressionKeywords : List (List Char) :=
  ["return", "yield", "await", "default", "case", "else", "in", "of", "typeof", "void", "do"].map
    String.toList

/-- Whether an expression may start after the given code, nearest character first. What ends an
operand (an identifier that is no keyword, a closing parenthesis or bracket, a string, a member
dot) rules it out. -/
def expressionMayStart (before : List Char) : Bool :=
  match skipSpace before with
  | [] => true
  | c :: s =>
    if isIdentChar c then
      expressionKeywords.contains ((c :: s).takeWhile isIdentChar).reverse
    else
      !([')', ']', '.', '\'', '"', '`'].contains c)

/-! ### Regular expression literals -/

/-- Length of what follows the opening slash of a regular expression, through the closing one, or
nothing when the line or the text ends first. A slash inside a character class does not close. -/
def regexBodyLength? : (inClass : Bool) → List Char → Option Nat
  | _, [] => none
  | _, ['\\'] => none
  | k, '\\' :: _ :: s => (regexBodyLength? k s).map (· + 2)
  | k, c :: s =>
    if c = '\n' then none
    else if c = '[' then (regexBodyLength? true s).map (· + 1)
    else if c = ']' then (regexBodyLength? false s).map (· + 1)
    else if c = '/' && !k then some 1
    else (regexBodyLength? k s).map (· + 1)

/-- Length of the regular expression literal at the start of the text with its flags, if the slash
there opens one. The slashes of `/>` and `</` belong to tags. -/
def regexLength? (before : List Char) : List Char → Option Nat
  | '/' :: c :: s =>
    if c = '/' || c = '*' || c = '>' then none
    else if (skipSpace before).head? = some '<' || !expressionMayStart before then none
    else match regexBodyLength? false (c :: s) with
      | some n => some (n + 1 + identLength ((c :: s).drop n))
      | none => none
  | _ => none

end ComponentAudit.Script
