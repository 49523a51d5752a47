import ComponentAudit.Decimal.Reading
import ComponentAudit.NameTable
import ComponentAudit.Text.Find

/-!
# Documents

What a configuration or catalog document says, whatever format it is written in, and how its parts
are read as the types that are expected. A scalar that is written without quotes in a format
without types is `plain`: it is a number, a truth value, null or a text, as the reader expects.
-/

namespace ComponentAudit

/-- How a list may be read where a record or a row of so many items is expected. -/
inductive ListKind where
  /-- As a row of exactly that many items, and never as a record. -/
  | strict
  /-- Also as a record: the list of its values. -/
  | record
  /-- Also as a record, and items beyond those expected are passed over. -/
  | surplus
  deriving DecidableEq, Repr

/-- The type that a document declares for a scalar. -/
inductive ScalarType where
  | null
  | bool
  | int
  | float
  /-- A type of no matter here. -/
  | other
  deriving DecidableEq, Repr

/-- A value of a document. -/
inductive Document where
  | null
  | bool (b : Bool)
  | int (n : Int)
  | float (x : Float)
  | string (s : String)
  /-- A scalar without quotes, whose type depends on what is expected. -/
  | plain (type : Option ScalarType) (s : String)
  /-- A scalar in a block of its own that is declared to have a type. -/
  | literal (type : ScalarType) (s : String)
  /-- A value of a kind that nothing expects, such as a table whose keys are lists. -/
  | other
  | list (kind : ListKind) (items : List Document)
  | table (fields : List (String × Document))
  deriving Inhabited

namespace Document

/-! ### Plain scalars -/

/-- The words for null. -/
def nullWords : List String := ["~", "null", "Null", "NULL"]

/-- The truth value that a plain scalar is. -/
def plainBool? (s : String) : Option Bool :=
  if ["true", "True", "TRUE"].contains s then some true
  else if ["false", "False", "FALSE"].contains s then some false
  else none

/-- Digits with a zero in front are no number. -/
def isPadded : List Char → Bool
  | '0' :: c :: s => (c :: s).all Char.isDigit
  | _ => false

/-- The natural number that a plain scalar is: decimal without padding, or with a radix mark. -/
def plainNat? (s : String) : Option Nat :=
  let digits := (Text.stripStart? ['+'] s.toList).getD s.toList
  match digits with
  | '0' :: 'x' :: ds => Decimal.radixValue? 16 ds
  | '0' :: 'o' :: ds => Decimal.radixValue? 8 ds
  | '0' :: 'b' :: ds => Decimal.radixValue? 2 ds
  | ds => if isPadded ds then none else Decimal.radixValue? 10 ds

/-- The double that a plain scalar is. -/
def plainFloat? (s : String) : Option Float :=
  if [".inf", ".Inf", ".INF", "+.inf", "+.Inf", "+.INF"].contains s then some (1.0 / 0.0)
  else if ["-.inf", "-.Inf", "-.INF"].contains s then some (-1.0 / 0.0)
  else if [".nan", ".NaN", ".NAN"].contains s then some (0.0 / 0.0)
  else match (Decimal.readDecimal? s.toList).map Decimal.Scientific.toFloat with
    | some x => if x.isFinite then some x else none
    | none => none

/-! ### Readers -/

/-- The largest number of a count. -/
def maxCount : Nat := UInt64.size - 1

/-- The text of a scalar that may be of the given type: one without quotes, or one that is declared
to have the type. -/
def scalarOf? (type : ScalarType) : Document → Option String
  | .plain _ s => some s
  | .literal t s => if t = type then some s else none
  | _ => none

/-- The value as a text. -/
def text? : Document → Option String
  | .string s => some s
  | .plain _ s => some s
  | .literal _ s => some s
  | _ => none

/-- The value as a truth value. -/
def bool? : Document → Option Bool
  | .bool b => some b
  | d => (d.scalarOf? .bool).bind plainBool?

/-- The value as a count. -/
def nat? (d : Document) : Option Nat :=
  let value : Option Nat := match d with
    | .int (.ofNat n) => some n
    | d => (d.scalarOf? .int).bind plainNat?
  value.bind fun n => if n ≤ maxCount then some n else none

/-- The value as a double. Integers of 64 bits, with or without sign, are doubles too. -/
def float? : Document → Option Float
  | .float x => some x
  | .int n => if -(Int.pow 2 63) ≤ n ∧ n ≤ maxCount then some (Float.ofInt n) else none
  | d => (d.scalarOf? .float).bind plainFloat?

/-- The items of a list. An empty scalar is an empty list. -/
def items? : Document → Option (List Document)
  | .list _ items => some items
  | .plain _ "" => some []
  | _ => none

/-- The items of a list that should have `n` of them. -/
def rowItems? (n : Nat) : Document → Option (List Document)
  | .list .surplus items => some (items.take n)
  | .list _ items => some items
  | _ => none

/-- The items of a list that stands for a record of `n` fields. -/
def recordItems? (n : Nat) : Document → Option (List Document)
  | .list .strict _ => none
  | d => d.rowItems? n

/-- The fields of a table. An empty scalar is an empty table. -/
def fields? : Document → Option (List (String × Document))
  | .table fields => some fields
  | .plain _ "" => some []
  | _ => none

/-- The items of a list, each read. -/
def list? {α : Type} (read : Document → Option α) (d : Document) : Option (List α) :=
  d.items?.bind fun items => items.mapM read

/-- The fields of a table, each read; of several of one name the last stays. -/
def table? {α : Type} (read : Document → Option α) (d : Document) : Option (NameTable α) :=
  (d.fields?.bind fun fields => fields.mapM fun (k, v) => (read v).map fun a => (k, a)).map
    NameTable.ofList

/-- A pair. -/
def pair? {α : Type} (read : Document → Option α) (d : Document) : Option (α × α) :=
  match d.rowItems? 2 with
  | some [a, b] => (read a).bind fun a => (read b).map fun b => (a, b)
  | _ => none

/-- A value that may stand for nothing. A scalar without quotes does if it is empty or a word for
null, unless a type is declared for it; one that is declared to be null must be such a word. -/
def optional? {α : Type} (read : Document → Option α) (d : Document) : Option (Option α) :=
  match d with
  | .null => some none
  | .plain none s => if s = "" || nullWords.contains s then some none else (read d).map some
  | .plain (some .null) s => if nullWords.contains s then some none else none
  | d => (read d).map some

/-! ### Records -/

/-- The fields of a record with the given keys, none of which may occur twice. A record may also be
written as the list of its values in the order of the keys, the last of which may be left out. -/
def record? (keys : List String) (d : Document) : Option (List (String × Document)) :=
  match d.recordItems? keys.length with
  | some items => if items.length ≤ keys.length then some (keys.zip items) else none
  | none => d.fields?.bind fun fields =>
    let known := (fields.map Prod.fst).filter keys.contains
    if known.eraseDups.length = known.length then some fields else none

/-- As `record?`, but a list must have a value for every key. -/
def fullRecord? (keys : List String) (d : Document) : Option (List (String × Document)) :=
  match d.recordItems? keys.length with
  | some items => if items.length = keys.length then d.record? keys else none
  | none => d.record? keys

/-- As `fullRecord?`, for a record that has no other fields than the given keys. -/
def closedRecord? (keys : List String) (d : Document) : Option (List (String × Document)) :=
  (d.fullRecord? keys).bind fun fields =>
    if fields.all fun f => keys.contains f.1 then some fields else none

/-- A field that must be there. -/
def required? {α : Type} (read : Document → Option α) (key : String)
    (fields : List (String × Document)) : Option α :=
  (fields.lookup key).bind read

/-- A field with a default. -/
def defaulted? {α : Type} (read : Document → Option α) (default : α) (key : String)
    (fields : List (String × Document)) : Option α :=
  match fields.lookup key with
  | none => some default
  | some d => read d

/-- A field that may be absent or stand for nothing. -/
def maybe? {α : Type} (read : Document → Option α) (key : String)
    (fields : List (String × Document)) : Option (Option α) :=
  defaulted? (optional? read) none key fields

end Document

end ComponentAudit
