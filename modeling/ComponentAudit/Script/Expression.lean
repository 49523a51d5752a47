import ComponentAudit.Script.Bracket
import ComponentAudit.Text.Word
import ComponentAudit.Usage.Value

/-!
# Values of expressions

`classify` tells what an attribute expression says about the value of a prop: a string, number or
boolean literal, a reference by a member path, or nothing.

A quoted literal is read by its first character and its end, which is dropped with the last byte
of the text. On an unterminated literal that byte may belong to a wider character, which cannot be
cut; then there is no value, and `classify` answers `none`.
-/

namespace ComponentAudit.Script

/-! ### Numbers -/

/-- The text after one or more digits. -/
def afterDigits? : List Char → Option (List Char)
  | [] => none
  | c :: s => if Text.isDigit c then some (s.dropWhile Text.isDigit) else none

/-- The text after a fraction, if it begins with a point; nothing when no digit follows it. -/
def afterFraction? : List Char → Option (List Char)
  | '.' :: s => afterDigits? s
  | s => some s

/-- The text after an exponent, if it begins with one; nothing when it has no digits. -/
def afterExponent? : List Char → Option (List Char)
  | c :: s =>
    if c = 'e' || c = 'E' then
      match s with
      | '+' :: s => afterDigits? s
      | '-' :: s => afterDigits? s
      | s => afterDigits? s
    else some (c :: s)
  | [] => some []

/-- Digits with underscores among them, then a fraction and an exponent, both optional. -/
def isDecimal : List Char → Bool
  | [] => false
  | c :: s =>
    Text.isDigit c &&
      (((afterFraction? (s.dropWhile fun d => Text.isDigit d || d = '_')).bind
        afterExponent?) == some [])

/-- A number with a radix mark, such as `0x1F`. -/
def isRadixNumber : List Char → Bool
  | '0' :: x :: s =>
    ['x', 'X', 'b', 'B', 'o', 'O'].contains x && !s.isEmpty &&
      s.all fun c => c.isDigit || ('a' ≤ c && c ≤ 'f') || ('A' ≤ c && c ≤ 'F') || c = '_'
  | _ => false

/-- A number that begins with its point, such as `.5`. -/
def isPointNumber : List Char → Bool
  | '.' :: s => afterDigits? s == some []
  | _ => false

/-- A number without sign and suffix. -/
def isPlainNumber (s : List Char) : Bool := isRadixNumber s || isDecimal s || isPointNumber s

/-- A number literal: an optional minus sign, a plain number and an optional `n`. -/
def isNumber (e : List Char) : Bool :=
  let s := (Text.stripStart? ['-'] e).getD e
  isPlainNumber s || (Text.stripEnd? ['n'] s).any isPlainNumber

/-! ### Member paths -/

/-- A character that may begin a name of a path. -/
def isPathStart (c : Char) : Bool := c.isAlpha || c = '_' || c = '$'

/-- A character that may continue a name of a path. -/
def isPathChar (c : Char) : Bool := Text.isWord c || c = '$'

/-- What may follow inside a path: more of the name, or `.` or `?.` and another name. -/
def isPathTail : List Char → Bool
  | [] => true
  | '?' :: '.' :: c :: s => isPathStart c && isPathTail s
  | '.' :: c :: s => isPathStart c && isPathTail s
  | c :: s => isPathChar c && isPathTail s

/-- A member path such as `props.user?.name`. -/
def isMemberPath : List Char → Bool
  | [] => false
  | c :: s => isPathStart c && isPathTail s

/-! ### Strings -/

/-- The text that a quoted literal stands for: `\n` and `\t` are line feed and tab, a backslash
before any other character stands for that character. -/
def unescape : List Char → List Char
  | [] => []
  | ['\\'] => []
  | '\\' :: c :: s =>
    (if c = 'n' then '\n' else if c = 't' then '\t' else c) :: unescape s
  | c :: s => c :: unescape s

/-- How an expression reads as a string literal. -/
inductive StringReading where
  /-- It is not one string literal. -/
  | other
  /-- It is the literal of this text. -/
  | text (s : List Char)
  /-- It is unterminated, and its end falls inside a character. -/
  | unreadable
  deriving DecidableEq, Repr

/-- Reads an expression that is exactly one string literal. A quoted one that is not terminated is
read without its last character, if that is a single byte. A template literal counts when nothing
is inserted into it. -/
def readString : List Char → StringReading
  | [] => .other
  | c :: s =>
    if c = '\'' || c = '"' then
      match s.getLast? with
      | none => .other
      | some last =>
        if quotedLength c s = s.length then
          if last.utf8Size = 1 then .text (unescape s.dropLast) else .unreadable
        else .other
    else if c = '`' then
      match enclosed? '`' (c :: s) with
      | some inner => if Text.contains ['$', '\x7b'] (c :: s) then .other else .text inner
      | none => .other
    else .other

/-! ### Classification -/

/-- The expression without the parentheses around the whole of it. -/
def unwrap (e : List Char) : List Char :=
  match _h : enclosed? '(' e with
  | some inner => unwrap (Text.trim inner)
  | none => e
termination_by e.length
decreasing_by
  exact Nat.lt_of_le_of_lt (Text.length_trim_le inner) (length_enclosed?_lt _h)

/-- The expression without `ending` and the blanks before it. -/
def stripSuffix (ending e : List Char) : List Char :=
  match Text.stripEnd? ending e with
  | some s => Text.trimEnd s
  | none => e

/-- The expression that decides the value: trimmed, without outer parentheses, without `as const`
and without a final `!`. -/
def bareExpression (e : List Char) : List Char :=
  stripSuffix ['!'] (stripSuffix "as const".toList (unwrap (Text.trim e)))

/-- The value of an expression that has been laid bare. -/
def classifyBare (e : List Char) : Option PropValue :=
  if e = [] || e = "null".toList || e = "undefined".toList then some .unresolved
  else if e = "true".toList then some (.bool true)
  else if e = "false".toList then some (.bool false)
  else if isNumber e then some (.literal (.number (String.ofList e)))
  else match readString e with
    | .text s => some (.string (String.ofList s))
    | .unreadable => none
    | .other =>
      if isMemberPath e then some (.reference (String.ofList e)) else some .unresolved

/-- What an attribute expression says about the value of its prop. There is no answer only for an
unterminated string literal whose end falls inside a character. -/
def classify (e : List Char) : Option PropValue := classifyBare (bareExpression e)

end ComponentAudit.Script
