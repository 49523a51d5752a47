/-!
# JSON values

Values of the data format in which results are exchanged. Integers and doubles are told apart, and
the fields of an object keep their order.
-/

namespace ComponentAudit

/-- A JSON value. -/
inductive Json where
  | null
  | bool (b : Bool)
  | int (n : Int)
  | float (x : Float)
  | string (s : String)
  | array (items : List Json)
  | object (fields : List (String × Json))
  deriving Inhabited

namespace Json

/-- A natural number. -/
def nat (n : Nat) : Json := .int n

/-- A list of texts. -/
def strings (ss : List String) : Json := .array (ss.map .string)

/-- A value or null. -/
def optional {α : Type} (f : α → Json) : Option α → Json
  | none => .null
  | some a => f a

/-- The field of an object with the given name. -/
def field? (key : String) : Json → Option Json
  | .object fields => fields.lookup key
  | _ => none

/-- The text of a string value. -/
def string? : Json → Option String
  | .string s => some s
  | _ => none

/-- The truth value of a boolean. -/
def bool? : Json → Option Bool
  | .bool b => some b
  | _ => none

/-- The number that a non-negative integer is. -/
def nat? : Json → Option Nat
  | .int (.ofNat n) => some n
  | _ => none

/-- The items of an array. -/
def array? : Json → Option (List Json)
  | .array items => some items
  | _ => none

/-- The fields of an object. -/
def object? : Json → Option (List (String × Json))
  | .object fields => some fields
  | _ => none

end Json

end ComponentAudit
