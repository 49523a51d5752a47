import ComponentAudit.Decimal.Layout
import ComponentAudit.Json.Value

/-!
# JSON texts

Two ways to write a value: `compact` on one line without blanks, and `pretty` with two blanks of
indentation for each level. Both write the fields of objects in their order, escape quotes,
backslashes and control characters, and no others.
-/

namespace ComponentAudit.Json

/-- A hexadecimal digit in lower case. -/
def hexDigit (n : Nat) : Char := if n < 10 then Char.ofNat (48 + n) else Char.ofNat (87 + n)

/-- A character inside a string. -/
def escapeChar (c : Char) : List Char :=
  if c = '"' then ['\\', '"']
  else if c = '\\' then ['\\', '\\']
  else if c = '\n' then ['\\', 'n']
  else if c = '\r' then ['\\', 'r']
  else if c = '\t' then ['\\', 't']
  else if c = '\x08' then ['\\', 'b']
  else if c = '\x0c' then ['\\', 'f']
  else if c.toNat < 0x20 then
    ['\\', 'u', '0', '0', hexDigit (c.toNat / 16), hexDigit (c.toNat % 16)]
  else [c]

/-- A string with its quotes. -/
def quote (s : String) : String := String.ofList ('"' :: s.toList.flatMap escapeChar ++ ['"'])

/-- A value that holds no others. There is no text for a double that is not finite but `null`. -/
def scalarText : Json → String
  | .bool true => "true"
  | .bool false => "false"
  | .int n => toString n
  | .float x => if x.isFinite then Decimal.shortestText x else "null"
  | .string s => quote s
  | _ => "null"

mutual

/-- A value on one line. -/
def compact : Json → String
  | .array items => "[" ++ compactItems items ++ "]"
  | .object fields => "\x7b" ++ compactFields fields ++ "\x7d"
  | v => scalarText v

/-- Items on one line, with commas between them. -/
def compactItems : List Json → String
  | [] => ""
  | [v] => compact v
  | v :: rest => compact v ++ "," ++ compactItems rest

/-- Fields on one line, with commas between them. -/
def compactFields : List (String × Json) → String
  | [] => ""
  | [(k, v)] => quote k ++ ":" ++ compact v
  | (k, v) :: rest => quote k ++ ":" ++ compact v ++ "," ++ compactFields rest

end

/-- A line break and the indentation of a level. -/
def breakLine (level : Nat) : String := "\n" ++ String.ofList (List.replicate (2 * level) ' ')

mutual

/-- A value on lines of their own for its items and fields, at the given level. -/
def prettyAt (level : Nat) : Json → String
  | .array [] => "[]"
  | .array items => "[" ++ prettyItems (level + 1) items ++ breakLine level ++ "]"
  | .object [] => "\x7b\x7d"
  | .object fields => "\x7b" ++ prettyFields (level + 1) fields ++ breakLine level ++ "\x7d"
  | v => scalarText v

/-- Items on a line each. -/
def prettyItems (level : Nat) : List Json → String
  | [] => ""
  | [v] => breakLine level ++ prettyAt level v
  | v :: rest => breakLine level ++ prettyAt level v ++ "," ++ prettyItems level rest

/-- Fields on a line each. -/
def prettyFields (level : Nat) : List (String × Json) → String
  | [] => ""
  | [(k, v)] => breakLine level ++ quote k ++ ": " ++ prettyAt level v
  | (k, v) :: rest =>
    breakLine level ++ quote k ++ ": " ++ prettyAt level v ++ "," ++ prettyFields level rest

end

/-- A value with indentation. -/
def pretty (v : Json) : String := prettyAt 0 v

end ComponentAudit.Json
