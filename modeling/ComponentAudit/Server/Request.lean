import ComponentAudit.Error
import ComponentAudit.Json.Parser

/-!
# Requests

A request is a line with a JSON object that has a method and may have an id and parameters. Other
fields are passed over, but none of these may occur twice. The array of id, method and parameters
stands for the same.
-/

namespace ComponentAudit

/-- A request. -/
structure Request where
  /-- The id, which is null when there is none. -/
  id : Json
  method : String
  params : Option Json

namespace Request

open Json

/-- The fields of a request. -/
def fieldNames : List String := ["id", "method", "params"]

/-- The levels of arrays and objects inside a request. -/
def innerLevels : Nat := maxLevels - 1

/-- A field of a request, whose value is kept if the request has a use for it. -/
def requestField (fuel : Nat) : Reader (String × Json) :=
  Json.field true fun k =>
    value (if fieldNames.contains k then some innerLevels else none) fuel

/-- A value that may be absent: null stands for none. -/
def present? : Option Json → Option Json
  | some .null => none
  | v => v

/-- The request with the given parts; the method must be a text. -/
def ofParts? (id method params : Option Json) : Option Request :=
  match method with
  | some (.string method) => some ⟨id.getD .null, method, present? params⟩
  | _ => none

/-- The request that fields as written make. -/
def ofFields? (fs : List (String × Json)) : Option Request :=
  let known := (fs.map Prod.fst).filter fieldNames.contains
  if known.eraseDups.length = known.length then
    ofParts? (fs.lookup "id") (fs.lookup "method") (fs.lookup "params")
  else none

/-- The request that items make. -/
def ofItems? : List Json → Option Request
  | [id, method, params] => ofParts? (some id) (some method) (some params)
  | _ => none

/-- A request and the rest of the text. -/
def reader (fuel : Nat) : Reader Request := fun s =>
  match skipBlanks s with
  | '\x7b' :: r =>
    (Json.fields (requestField fuel) fuel r).bind fun (fs, r) => (ofFields? fs).map (·, r)
  | '[' :: r =>
    (Json.items (value (some innerLevels) fuel) fuel r).bind fun (vs, r) => (ofItems? vs).map (·, r)
  | _ => none

/-- The request of a line, if it is one. -/
def parse? (line : String) : Option Request :=
  let s := line.toList
  match reader (s.length + 1) s with
  | some (q, r) => if (skipBlanks r).isEmpty then some q else none
  | none => none

/-- A notification: it has no id and its method is one of those that get no reply. -/
def isNotification (q : Request) : Bool :=
  (match q.id with
    | .null => true
    | _ => false) && Text.startsWith "notifications/".toList q.method.toList

end Request

end ComponentAudit
