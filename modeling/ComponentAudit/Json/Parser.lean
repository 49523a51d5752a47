import ComponentAudit.Json.Number
import ComponentAudit.Text.Find

/-!
# Reading JSON

Reads values from texts. A value that is kept may have a limited number of arrays and objects
inside each other, its strings must be texts and its numbers must have values. A value that is
passed over has only the form of one. Of several fields of one name in an object, the first gives
the place and the last the value.
-/

namespace ComponentAudit.Json

/-- Reads something from the start of a text and gives the rest. -/
abbrev Reader (α : Type) := List Char → Option (α × List Char)

/-- How a value is read: `some n` keeps it, with at most `n` levels of arrays and objects, and
`none` passes over it. -/
abbrev Levels := Option Nat

/-- The levels inside an array or object. -/
def Levels.enter? : Levels → Option Levels
  | none => some none
  | some 0 => none
  | some (n + 1) => some (some n)

/-! ### Blanks and strings -/

/-- The blanks between the parts of a value. -/
def isBlank (c : Char) : Bool := c = ' ' || c = '\n' || c = '\t' || c = '\r'

/-- Drops blanks. -/
def skipBlanks (s : List Char) : List Char := s.dropWhile isBlank

/-- The 16-bit unit that four hexadecimal digits stand for. -/
def hexUnit? (s : List Char) : Option Nat :=
  let ds := s.take 4
  if ds.length = 4 then Decimal.radixValue? 16 ds else none

/-- The character of the 16-bit units at the start of a text, after a `\u`, and how many characters
of the text it takes. Two units of a pair make one character, and a half of a pair is none. -/
def unitChar? (s : List Char) : Option (Char × Nat) :=
  (hexUnit? s).bind fun high =>
    if 0xD800 ≤ high ∧ high ≤ 0xDBFF then
      match s.drop 4 with
      | '\\' :: 'u' :: r => (hexUnit? r).bind fun low =>
          if 0xDC00 ≤ low ∧ low ≤ 0xDFFF then
            some (Char.ofNat (0x10000 + (high - 0xD800) * 0x400 + (low - 0xDC00)), 10)
          else none
      | _ => none
    else if 0xDC00 ≤ high ∧ high ≤ 0xDFFF then none
    else some (Char.ofNat high, 4)

/-- The character that follows a backslash stands for, other than by its number. -/
def shortEscape? : Char → Option Char
  | '"' => some '"'
  | '\\' => some '\\'
  | '/' => some '/'
  | 'b' => some '\x08'
  | 'f' => some '\x0c'
  | 'n' => some '\n'
  | 'r' => some '\r'
  | 't' => some '\t'
  | _ => none

/-- The character that is escaped at the start of a text, after the backslash, and how many
characters of the text it takes. -/
def escaped? (keep : Bool) : List Char → Option (Char × Nat)
  | 'u' :: s =>
    if keep then (unitChar? s).map fun (c, n) => (c, n + 1)
    -- What is passed over may be half of a pair; the character given for it is never seen.
    else (hexUnit? s).map fun _ => ('\uFFFD', 5)
  | c :: _ => (shortEscape? c).map fun c => (c, 1)
  | [] => none

/-- The rest of a string after its opening quote and `done`, where `skip` characters belong to the
last one. -/
def stringWalk (keep : Bool) (done : List Char) : (skip : Nat) → Reader String
  | _, [] => none
  | skip + 1, _ :: s => stringWalk keep done skip s
  | 0, c :: s =>
    if c = '"' then some (String.ofList done.reverse, s)
    else if c = '\\' then
      match escaped? keep s with
      | some (e, n) => stringWalk keep (e :: done) n s
      | none => none
    else if c.toNat < 0x20 then none
    else stringWalk keep (c :: done) 0 s

/-- A string with its quotes. -/
def quoted (keep : Bool) : Reader String
  | '"' :: s => stringWalk keep [] 0 s
  | _ => none

/-! ### Arrays and objects -/

/-- The items of an array after its opening bracket. -/
def itemList (item : Reader Json) (done : List Json) : (fuel : Nat) → Reader (List Json)
  | 0, _ => none
  | fuel + 1, s =>
    (item s).bind fun (v, r) =>
      match skipBlanks r with
      | ',' :: r => itemList item (v :: done) fuel r
      | ']' :: r => some ((v :: done).reverse, r)
      | _ => none

/-- An array after its opening bracket. -/
def items (item : Reader Json) (fuel : Nat) : Reader (List Json) := fun s =>
  match skipBlanks s with
  | ']' :: r => some ([], r)
  | r => itemList item [] fuel r

/-- A field: a name, a colon and a value. -/
def field (keep : Bool) (value : String → Reader Json) : Reader (String × Json) := fun s =>
  (quoted keep (skipBlanks s)).bind fun (k, r) =>
    match skipBlanks r with
    | ':' :: r => (value k r).map fun (v, r) => ((k, v), r)
    | _ => none

/-- The fields of an object after its opening brace. -/
def fieldList (one : Reader (String × Json)) (done : List (String × Json)) :
    (fuel : Nat) → Reader (List (String × Json))
  | 0, _ => none
  | fuel + 1, s =>
    (one s).bind fun (f, r) =>
      match skipBlanks r with
      | ',' :: r => fieldList one (f :: done) fuel r
      | '\x7d' :: r => some ((f :: done).reverse, r)
      | _ => none

/-- An object after its opening brace, with its fields as written. -/
def fields (one : Reader (String × Json)) (fuel : Nat) : Reader (List (String × Json)) := fun s =>
  match skipBlanks s with
  | '\x7d' :: r => some ([], r)
  | r => fieldList one [] fuel r

/-- Puts a field to others: in the place of one of its name, or behind them. -/
def setField (fs : List (String × Json)) (f : String × Json) : List (String × Json) :=
  if fs.any fun g => g.1 = f.1 then fs.map fun g => if g.1 = f.1 then f else g else fs ++ [f]

/-- The object of fields as written. -/
def ofWritten (fs : List (String × Json)) : Json := .object (fs.foldl setField [])

/-! ### Values -/

/-- A number, with its value if it is kept. -/
def number (keep : Bool) : Reader Json := fun s =>
  (numberText? s).bind fun (t, r) =>
    if keep then t.value?.map fun v => (v, r) else some (.null, r)

/-- A word. -/
def word (text : String) (v : Json) : Reader Json := fun s =>
  (Text.stripStart? text.toList s).map fun r => (v, r)

/-- A value. -/
def value (levels : Levels) : (fuel : Nat) → Reader Json
  | 0, _ => none
  | fuel + 1, s =>
    match skipBlanks s with
    | [] => none
    | c :: r =>
      if c = '"' then (stringWalk levels.isSome [] 0 r).map fun (t, r) => (.string t, r)
      else if c = '[' then levels.enter?.bind fun inner =>
        (items (value inner fuel) fuel r).map fun (vs, r) => (.array vs, r)
      else if c = '\x7b' then levels.enter?.bind fun inner =>
        (fields (field levels.isSome fun _ => value inner fuel) fuel r).map fun (fs, r) =>
          (ofWritten fs, r)
      else if c = 't' then word "true" (.bool true) (c :: r)
      else if c = 'f' then word "false" (.bool false) (c :: r)
      else if c = 'n' then word "null" .null (c :: r)
      else number levels.isSome (c :: r)

/-- How many arrays and objects a text may have inside each other. -/
def maxLevels : Nat := 127

/-- The value of a whole text. -/
def parse? (text : String) : Option Json :=
  let s := text.toList
  -- Every array, object and item takes a character, so the fuel lasts.
  match value (some maxLevels) (s.length + 1) s with
  | some (v, r) => if (skipBlanks r).isEmpty then some v else none
  | none => none

end ComponentAudit.Json
