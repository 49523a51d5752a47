import ComponentAudit.Text.Lower

/-!
# Prop values

What a source file says statically about the value of a prop: a literal, a reference to something
known only at run time, or nothing that can be told. An `unresolved` value is present, so it meets
a presence requirement, but it neither passes nor fails a check of its value.
-/

namespace ComponentAudit

/-- A statically known value. Numbers keep their source text. -/
inductive Literal where
  | string (text : String)
  | number (source : String)
  | bool (value : Bool)
  deriving DecidableEq, Repr

/-- The text that is compared with the allowed values of a prop. -/
def Literal.text : Literal → String
  | .string s => s
  | .number s => s
  | .bool true => "true"
  | .bool false => "false"

/-- What is known of the value of a prop. -/
inductive PropValue where
  | literal (value : Literal)
  | reference (path : String)
  | unresolved
  deriving DecidableEq, Repr

namespace PropValue

/-- A string literal. -/
def string (s : String) : PropValue := .literal (.string s)

/-- A boolean literal. -/
def bool (b : Bool) : PropValue := .literal (.bool b)

/-- A literal that switches a prop on: any but `false` and the string `"false"`. -/
def isSetLiteral : PropValue → Bool
  | .literal (.bool b) => b
  | .literal (.string s) => s ≠ "false"
  | .literal (.number _) => true
  | _ => false

/-- Not switched off by a literal. -/
def isEnabled : PropValue → Bool
  | .literal l => isSetLiteral (.literal l)
  | _ => true

end PropValue

/-- The form in which prop names are compared: case and the separators `-` and `_` do not count,
so `messageAriaDescribedby` and `message-aria-describedby` have one key. -/
def propKey (name : String) : String :=
  String.ofList ((name.toList.filter fun c => c ≠ '-' ∧ c ≠ '_').flatMap Text.lower)

end ComponentAudit
