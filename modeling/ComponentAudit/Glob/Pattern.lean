import ComponentAudit.Text.Find

/-!
# Glob patterns

Patterns over paths: `?` and `[..]` match one character, `*` any number within a component, and
`**`, which must be a component of its own, any number of components. None but `**` and a slash
itself match a slash. Case counts, and a leading dot is like any other character.
-/

namespace ComponentAudit.Glob

/-- An item of a character class. -/
inductive ClassItem where
  | single (c : Char)
  | range (first last : Char)
  deriving DecidableEq, Repr

/-- A part of a pattern. -/
inductive Token where
  | char (c : Char)
  /-- Any character. -/
  | any
  | within (items : List ClassItem)
  | except (items : List ClassItem)
  /-- Any text within a component. -/
  | sequence
  /-- Any number of components. -/
  | recursive
  deriving DecidableEq, Repr

/-- A pattern. -/
abbrev Pattern := List Token

/-! ### Faults -/

/-- What is wrong with a pattern. -/
inductive FaultKind where
  /-- More than two stars in a row. -/
  | wildcards
  /-- Two stars that are no component of their own. -/
  | recursiveWildcards
  /-- A character class that is not closed or empty. -/
  | range
  deriving DecidableEq, Repr

/-- A fault with its place, counted in characters. -/
structure PatternFault where
  position : Nat
  kind : FaultKind
  deriving DecidableEq, Repr

/-- The wording of a kind of fault. -/
def FaultKind.message : FaultKind → String
  | .wildcards => "wildcards are either regular `*` or recursive `**`"
  | .recursiveWildcards => "recursive wildcards must form a single path component"
  | .range => "invalid range pattern"

/-- The wording of a fault. -/
def PatternFault.message (f : PatternFault) : String :=
  s!"Pattern syntax error near position {f.position}: {f.kind.message}"

/-! ### Reading -/

/-- The items of a character class. -/
def classItems : List Char → List ClassItem
  | a :: '-' :: b :: s => .range a b :: classItems s
  | c :: s => .single c :: classItems s
  | [] => []

/-- The character class that follows an opening bracket, and the number of characters through its
closing bracket. A closing bracket as the first character of a class belongs to it. -/
def readClass? : List Char → Option (Token × Nat)
  | '!' :: c :: s =>
    (Text.findChar? ']' s).map fun n => (.except (classItems (c :: s.take n)), n + 3)
  | '!' :: [] => none
  | c :: s =>
    (Text.findChar? ']' s).map fun n => (.within (classItems (c :: s.take n)), n + 2)
  | [] => none

/-- A run of `count` stars at the position, after `previous` and followed by `rest`: its token and
how many characters of `rest` belong to it. -/
def readStars (count position : Nat) (previous : Option Char) (rest : List Char) :
    Except PatternFault (Token × Nat) :=
  if count = 1 then .ok (.sequence, 0)
  else if 2 < count then .error ⟨position + 2, .wildcards⟩
  -- The first character of a pattern has none before it.
  else if previous.any (· ≠ '/') then .error ⟨position - 1, .recursiveWildcards⟩
  else match rest with
    | [] => .ok (.recursive, 0)
    | c :: _ =>
      if c = '/' then .ok (.recursive, 1) else .error ⟨position + 2, .recursiveWildcards⟩

/-- Adds a token to those read, last first; a repeated `**` counts once. -/
def addToken (t : Token) (done : List Token) : List Token :=
  if t = .recursive && 1 < done.length && done.head? = some .recursive then done else t :: done

/-- Reads a pattern from a position on. `done` holds the tokens read, last first, and `skip`
characters belong to the last token. -/
def readWalk (position : Nat) (previous : Option Char) (done : List Token) :
    Nat → List Char → Except PatternFault Pattern
  | _, [] => .ok done.reverse
  | skip + 1, c :: s => readWalk (position + 1) (some c) done skip s
  | 0, c :: s =>
    if c = '?' then readWalk (position + 1) (some c) (.any :: done) 0 s
    else if c = '*' then
      let more := (s.takeWhile (· = '*')).length
      match readStars (more + 1) position previous (s.drop more) with
      | .error e => .error e
      | .ok (t, extra) => readWalk (position + 1) (some c) (addToken t done) (more + extra) s
    else if c = '[' then
      match readClass? s with
      | none => .error ⟨position, .range⟩
      | some (t, length) => readWalk (position + 1) (some c) (t :: done) length s
    else readWalk (position + 1) (some c) (.char c :: done) 0 s

/-- Reads a pattern. -/
def Pattern.read (text : List Char) : Except PatternFault Pattern := readWalk 0 none [] 0 text

/-- The text as a pattern that matches only itself. -/
def escape (text : List Char) : List Char :=
  text.flatMap fun c => if "?*[]".toList.contains c then ['[', c, ']'] else [c]

/-! ### Matching -/

/-- The class has the character. -/
def ClassItem.covers (c : Char) : ClassItem → Bool
  | .single a => a = c
  | .range first last => first ≤ c && c ≤ last

/-- The token, if it stands for one character, accepts this one. -/
def Token.accepts (c : Char) : Token → Bool
  | .char a => a = c
  | .any => c ≠ '/'
  | .within items => c ≠ '/' && items.any (·.covers c)
  | .except items => c ≠ '/' && !items.any (·.covers c)
  | .sequence => false
  | .recursive => false

/-- `p` holds of the text after some characters of its first component. -/
def afterSequence (p : List Char → Bool) : List Char → Bool
  | [] => p []
  | c :: s => p (c :: s) || (c ≠ '/' && afterSequence p s)

/-- `p` holds of the text after some of its slashes, or of nothing. -/
def afterSlash (p : List Char → Bool) : List Char → Bool
  | [] => p []
  | c :: s => (c = '/' && p s) || afterSlash p s

/-- Whether the pattern matches the whole text. -/
def Pattern.matches : Pattern → List Char → Bool
  | [], s => s.isEmpty
  | .sequence :: ts, s => afterSequence (Pattern.matches ts) s
  | .recursive :: ts, s => Pattern.matches ts s || afterSlash (Pattern.matches ts) s
  | _ :: _, [] => false
  | t :: ts, c :: s => t.accepts c && Pattern.matches ts s

end ComponentAudit.Glob
