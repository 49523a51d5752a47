/-!
# Searching a text

Texts are lists of characters. A search answers with the number of characters before the match,
so that `take` and `drop` give the two sides.
-/

namespace ComponentAudit.Text

/-- The rest of `s` after `start`, when `s` begins with it. -/
def stripStart? : (start s : List Char) → Option (List Char)
  | [], s => some s
  | _ :: _, [] => none
  | a :: start, c :: s => if a = c then stripStart? start s else none

/-- What precedes `ending`, when `s` ends with it. -/
def stripEnd? (ending s : List Char) : Option (List Char) :=
  (stripStart? ending.reverse s.reverse).map List.reverse

/-- Whether `s` begins with `start`. -/
def startsWith (start s : List Char) : Bool := (stripStart? start s).isSome

/-- As `findWhere?`, with `n` characters already passed. -/
def findWhereFrom? (p : List Char → Bool) (n : Nat) : List Char → Option Nat
  | [] => if p [] then some n else none
  | c :: s => if p (c :: s) then some n else findWhereFrom? p (n + 1) s

/-- The number of characters before the first place where `p` holds of the remaining text. -/
def findWhere? (p : List Char → Bool) (s : List Char) : Option Nat := findWhereFrom? p 0 s

/-- The number of characters before the first occurrence of `needle`. -/
def find? (needle s : List Char) : Option Nat := findWhere? (startsWith needle) s

/-- Whether `needle` occurs in `s`. -/
def contains (needle s : List Char) : Bool := (find? needle s).isSome

/-- The number of characters before the first `c`. -/
def findChar? (c : Char) (s : List Char) : Option Nat := findWhere? (·.head? = some c) s

/-- The pieces of `s` between the occurrences of the character `sep`; there is always one. -/
def splitAt (sep : Char) : List Char → List (List Char)
  | [] => [[]]
  | c :: s =>
    if c = sep then [] :: splitAt sep s
    else match splitAt sep s with
      | [] => [[c]]
      | p :: ps => (c :: p) :: ps

/-- The upper-case ASCII letters go to lower case, all else stays. -/
def lowerAscii (c : Char) : Char := if 'A' ≤ c ∧ c ≤ 'Z' then Char.ofNat (c.toNat + 32) else c

/-- The lower-case ASCII letters go to upper case, all else stays. -/
def upperAscii (c : Char) : Char := if 'a' ≤ c ∧ c ≤ 'z' then Char.ofNat (c.toNat - 32) else c

/-- Equality of texts up to the case of ASCII letters. -/
def equalIgnoringCase (s t : List Char) : Bool := s.map lowerAscii = t.map lowerAscii

/-- Size of a text in its UTF-8 encoding. -/
def byteSize (s : List Char) : Nat := s.foldr (fun c n => c.utf8Size + n) 0

end ComponentAudit.Text
