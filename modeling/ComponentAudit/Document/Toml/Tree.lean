import ComponentAudit.Document.Value

/-!
# Trees of TOML tables

A document is built up from headers and assignments. The tree remembers how each table came about,
because that decides what may still be added to it: a header may complete a table that longer
headers only implied, and dotted keys may add to a table that dotted keys made.
-/

namespace ComponentAudit.Toml

/-- How a table came about. -/
inductive Origin where
  /-- As a part of a longer header. -/
  | implied
  /-- By a header of its own. -/
  | header
  /-- By a dotted key. -/
  | dotted
  deriving DecidableEq, Repr

/-- A tree that is being built. -/
inductive Node where
  /-- A value that is complete. -/
  | leaf (value : Document)
  | table (origin : Origin) (fields : List (String × Node))
  /-- Tables under a repeated header, last first. -/
  | tables (items : List (List (String × Node)))

/-- The fields of a table that is being built, in the order of their keys' first use. -/
abbrev Fields := List (String × Node)

/-- Changes what stands under a key, which may be absent. -/
def change (key : String) (f : Option Node → Option Node) : Fields → Option Fields
  | [] => (f none).map fun n => [(key, n)]
  | (k, n) :: fields =>
    if k = key then (f (some n)).map fun n => (k, n) :: fields
    else (change key f fields).map ((k, n) :: ·)

/-! ### Headers -/

/-- Changes the table that the keys of a header lead to. Tables on the way are made when absent, and
of repeated ones the last is taken. -/
def descend (f : Fields → Option Fields) : List String → Fields → Option Fields
  | [], fields => f fields
  | key :: keys, fields =>
    let into := descend f keys
    change key (fun
      | none => (into []).map (.table .implied)
      | some (.leaf _) => none
      | some (.table origin inner) => (into inner).map (.table origin)
      | some (.tables (last :: items)) => (into last).map fun last => .tables (last :: items)
      | some (.tables []) => none) fields

/-- Declares a table, which may so far only be implied. -/
def declareTable (key : String) : Fields → Option Fields :=
  change key fun
    | none => some (.table .header [])
    | some (.table .implied fields) => some (.table .header fields)
    | some _ => none

/-- Declares one more table of a repeated header. -/
def declareItem (key : String) : Fields → Option Fields :=
  change key fun
    | none => some (.tables [[]])
    | some (.tables items) => some (.tables ([] :: items))
    | some _ => none

/-! ### Assignments -/

/-- Whether a dotted key may add to a table: to one that dotted keys made, and, if it leads on to
tables further down, also to one that is only implied. -/
def Origin.takesDotted (origin : Origin) (leadsOn : Bool) : Bool :=
  match origin with
  | .dotted => true
  | .implied => leadsOn
  | .header => false

/-- Assigns a value under a dotted key, which must not be in use. -/
def assign (value : Document) : List String → Fields → Option Fields
  | [], _ => none
  | [key], fields => change key (fun
      | none => some (.leaf value)
      | some _ => none) fields
  | key :: keys, fields =>
    let into := assign value keys
    let leadsOn := 1 < keys.length
    change key (fun
      | none => (into []).map (.table .dotted)
      | some (.table origin inner) =>
        if origin.takesDotted leadsOn then (into inner).map (.table origin) else none
      | some (.tables (last :: items)) =>
        if leadsOn then (into last).map fun last => .tables (last :: items) else none
      | some _ => none) fields

/-! ### Finished trees -/

mutual

/-- The value that a finished node stands for. -/
def Node.toDocument : Node → Document
  | .leaf value => value
  | .table _ fields => .table (fieldsToDocument fields)
  | .tables items => .list .surplus (itemsToDocument items).reverse

/-- The values of finished fields. -/
def fieldsToDocument : List (String × Node) → List (String × Document)
  | [] => []
  | (k, n) :: fields => (k, n.toDocument) :: fieldsToDocument fields

/-- The values of finished tables. -/
def itemsToDocument : List (List (String × Node)) → List Document
  | [] => []
  | fields :: items => .table (fieldsToDocument fields) :: itemsToDocument items

end

end ComponentAudit.Toml
