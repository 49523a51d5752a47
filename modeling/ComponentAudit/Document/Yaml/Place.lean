/-!
# Characters and places of YAML texts

Which characters a YAML text may hold, what its line breaks are, and places in a text: what is left
of it, and in which line and column it begins. Line breaks are made uniform before a text is read,
so each of them is one character from then on.
-/

namespace ComponentAudit.Yaml

/-! ### Characters -/

/-- A character that a document may hold: no control characters but tabs and line breaks. -/
def isAllowed (c : Char) : Bool :=
  c = '\t' || c = '\n' || c = '\r' || (' ' ≤ c && c ≤ '~') || c.toNat = 0x85 ||
    (0xA0 ≤ c.toNat && c.toNat ≠ 0xFFFE && c.toNat ≠ 0xFFFF)

/-- The text with each line break as one character. The breaks of lines and paragraphs that have a
character of their own stay; all others become the same one. -/
def uniformBreaks : List Char → List Char
  | '\r' :: '\n' :: s => '\n' :: uniformBreaks s
  | c :: s => (if c = '\r' || c.toNat = 0x85 then '\n' else c) :: uniformBreaks s
  | [] => []

/-- A line break of a uniform text. -/
def isBreak (c : Char) : Bool := c = '\n' || c.toNat = 0x2028 || c.toNat = 0x2029

/-- A blank within a line. -/
def isBlank (c : Char) : Bool := c = ' ' || c = '\t'

/-- The text begins with a blank or a line break, or is at its end. -/
def atGap (s : List Char) : Bool := s.head?.all fun c => isBlank c || isBreak c

/-- The text is at the end of a line. -/
def atLineEnd (s : List Char) : Bool := s.head?.all isBreak

/-- A character of names: of anchors, directives and tag handles. -/
def isNameChar (c : Char) : Bool := c.isAlphanum || c = '_' || c = '-'

/-- A mark of document boundaries at the start of the text: three dashes or three dots. -/
def beginsWithDocumentMark : List Char → Bool
  | a :: b :: c :: s => (a = '-' || a = '.') && a = b && b = c && atGap s
  | _ => false

/-! ### Places -/

/-- What is left of a text, and where it begins. -/
structure Place where
  rest : List Char
  line : Nat := 0
  column : Nat := 0
  deriving DecidableEq, Repr

/-- The place after a character, which may be a line break. -/
def Place.next (p : Place) : Place :=
  match p.rest with
  | [] => p
  | c :: s => if isBreak c then ⟨s, p.line + 1, 0⟩ else ⟨s, p.line, p.column + 1⟩

/-- The place so many characters further in the same line. -/
def Place.skip (p : Place) (n : Nat) : Place := ⟨p.rest.drop n, p.line, p.column + n⟩

/-- The place after the characters of a class, none of which is a line break. -/
def Place.skipWhile (p : Place) (inClass : Char → Bool) : Place :=
  p.skip (p.rest.takeWhile inClass).length

/-- The place after a comment, if it begins with one. -/
def Place.skipComment (p : Place) : Place :=
  if p.rest.head? = some '#' then p.skipWhile (!isBreak ·) else p

/-- The place at the start of the next line, if nothing but blanks and a comment are left of this
one. -/
def Place.finishLine? (p : Place) : Option Place :=
  let p := (p.skipWhile isBlank).skipComment
  if atLineEnd p.rest then some p.next else none

/-- The place after blanks, comments and line breaks, and whether there was a break. Tabs are no
blanks if `tabs` does not hold; `breakTabs` tells what holds of lines after this one. A byte order
mark may begin a line. -/
def Place.skipSpace (tabs breakTabs : Bool) : (fuel : Nat) → Place → Place × Bool
  | 0, p => (p, false)
  | fuel + 1, p =>
    let p := if p.column = 0 && p.rest.head?.any (·.toNat = 0xFEFF) then p.skip 1 else p
    let p := (p.skipWhile fun c => c = ' ' || (tabs && c = '\t')).skipComment
    if p.rest.head?.any isBreak then ((Place.skipSpace breakTabs breakTabs fuel p.next).1, true)
    else (p, false)

end ComponentAudit.Yaml
