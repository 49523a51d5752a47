import ComponentAudit.Document.Toml.Scalar
import ComponentAudit.Document.Toml.Text
import ComponentAudit.Document.Toml.Tree

/-!
# TOML documents

A TOML text is read in two steps: into statements, which are table headers and assignments, and
from statements into a tree, where the rules about tables that are declared twice are checked.
Nested values are read with a fuel that the length of the text bounds, and only so many levels deep.
-/

namespace ComponentAudit.Toml

/-! ### Values -/

mutual

/-- The value at the start of the text, with no more than so many levels of brackets. -/
def value? (levels : Nat) : (fuel : Nat) → Reader Document
  | 0, _ => none
  | fuel + 1, s =>
    match s with
    | '"' :: _ => (string? s).map fun (t, s) => (.string t, s)
    | '\'' :: _ => (string? s).map fun (t, s) => (.string t, s)
    | '[' :: r =>
      if levels = 0 then none
      else (arrayItems? (levels - 1) [] fuel r).map fun (items, s) => (.list .surplus items, s)
    | '\x7b' :: r =>
      if levels = 0 then none
      else (inlineFields? (levels - 1) [] fuel r).map fun (fields, s) =>
        (.table (fieldsToDocument fields), s)
    | _ =>
      let token := scalarText s
      (scalar? token).map fun v => (v, s.drop token.length)

/-- The items of an array after its bracket; `done` holds those read, last first. -/
def arrayItems? (levels : Nat) (done : List Document) : (fuel : Nat) → Reader (List Document)
  | 0, _ => none
  | fuel + 1, s =>
    match skipLines s with
    | ']' :: r => some (done.reverse, r)
    | s =>
      (value? levels fuel s).bind fun (v, r) =>
        match skipLines r with
        | ',' :: r => arrayItems? levels (v :: done) fuel r
        | ']' :: r => some ((v :: done).reverse, r)
        | _ => none

/-- The fields of an inline table after its brace. -/
def inlineFields? (levels : Nat) (done : Fields) : (fuel : Nat) → Reader Fields
  | 0, _ => none
  | fuel + 1, s =>
    match skipLines s with
    | '\x7d' :: r => some (done, r)
    | s =>
      (key? s).bind fun (key, r) =>
        match r with
        | '=' :: r =>
          (value? levels fuel (skipBlanks r)).bind fun (v, r) =>
            (assign v key done).bind fun done =>
              match skipLines r with
              | ',' :: r => inlineFields? levels done fuel r
              | '\x7d' :: r => some (done, r)
              | _ => none
        | _ => none

end

/-! ### Statements -/

/-- One line of a document that says something. -/
inductive Statement where
  | header (key : List String)
  | repeatedHeader (key : List String)
  | assignment (key : List String) (value : Document)

/-- The header or assignment at the start of the text. -/
def statement? (fuel : Nat) (s : List Char) : Option (Statement × List Char) :=
  match s with
  | '[' :: '[' :: r =>
    (key? r).bind fun (key, r) =>
      match r with
      | ']' :: ']' :: r => some (.repeatedHeader key, r)
      | _ => none
  | '[' :: r =>
    (key? r).bind fun (key, r) =>
      match r with
      | ']' :: r => some (.header key, r)
      | _ => none
  | _ =>
    (key? s).bind fun (key, r) =>
      match r with
      | '=' :: r =>
        (value? maxNesting fuel (skipBlanks r)).map fun (v, r) => (.assignment key v, r)
      | _ => none

/-- The statements of a document. -/
def statements? (done : List Statement) : (fuel : Nat) → List Char → Option (List Statement)
  | 0, _ => none
  | fuel + 1, s =>
    match skipLines s with
    | [] => some done.reverse
    | s =>
      (statement? (fuel + 1) s).bind fun (st, r) =>
        -- Only a comment may follow on the line.
        match skipComment (skipBlanks r) with
        | [] => some (st :: done).reverse
        | r => (afterBreak? r).bind fun r => statements? (st :: done) fuel r

/-! ### Documents -/

/-- A document that is being built, and the header that assignments are under. -/
structure Build where
  root : Fields := []
  current : List String := []

/-- Adds a statement. -/
def Build.add (b : Build) : Statement → Option Build
  | .header key => key.getLast?.bind fun last =>
      (descend (declareTable last) key.dropLast b.root).map fun root => ⟨root, key⟩
  | .repeatedHeader key => key.getLast?.bind fun last =>
      (descend (declareItem last) key.dropLast b.root).map fun root => ⟨root, key⟩
  | .assignment key value =>
      (descend (assign value key) b.current b.root).map fun root => { b with root }

/-- Reads a document; a byte order mark in front is passed over. -/
def read? (text : String) : Option Document :=
  let s := match text.toList with
    | c :: s => if c.toNat = 0xFEFF then s else c :: s
    | [] => []
  (statements? [] (s.length + 1) s).bind fun statements =>
    (statements.foldlM Build.add {}).map fun b => .table (fieldsToDocument b.root)

end ComponentAudit.Toml
