import ComponentAudit.Script.Token

/-!
# Matching brackets

`closeLength?` finds the bracket or backtick that closes a given one. Strings, comments, regular
expressions and template literals, with code nested in them, are passed over. A closer that does
not match the innermost open bracket goes back to the nearest one that it matches, or is ignored
when there is none.

The walk takes one character at a time; a token that is passed over is counted down, so every step
goes forward.
-/

namespace ComponentAudit.Script

/-- What an open bracket encloses. -/
inductive Context where
  /-- Code up to the given closing bracket. -/
  | code (closer : Char)
  /-- The text of a template literal up to its backtick. -/
  | template
  deriving DecidableEq, Repr

/-- What the character opens, if it opens anything. -/
def Context.ofOpener? : Char → Option Context
  | '\x7b' => some (.code '\x7d')
  | '(' => some (.code ')')
  | '[' => some (.code ']')
  | '`' => some .template
  | _ => none

/-- A closing bracket. -/
def isCloser (c : Char) : Bool := c = '\x7d' || c = ')' || c = ']'

/-- The contexts left open by a closing bracket: all from the nearest one that it matches inward
are closed. Nothing when it matches none. -/
def closeContext? (closer : Char) : List Context → Option (List Context)
  | [] => none
  | ctx :: outer => if ctx = .code closer then some outer else closeContext? closer outer

/-- What a step of the walk does: end here, or go on in the given contexts after passing over some
more characters. -/
inductive Step where
  | found
  | next (skip : Nat) (open_ : List Context)

/-- A step inside a template literal, at the character `c`. -/
def templateStep (outer : List Context) (c : Char) (rest : List Char) : Step :=
  if c = '\\' then .next 1 (.template :: outer)
  else if c = '`' then
    match outer with
    | [] => .found
    | _ => .next 0 outer
  else if c = '$' && rest.head? = some '\x7b' then .next 1 (.code '\x7d' :: .template :: outer)
  else .next 0 (.template :: outer)

/-- A step inside code, at the character `c` after the code `before`. -/
def codeStep (contexts : List Context) (before : List Char) (c : Char) (rest : List Char) : Step :=
  match commentLength? (c :: rest) with
  | some n => .next (n - 1) contexts
  | none =>
    match regexLength? before (c :: rest) with
    | some n => .next (n - 1) contexts
    | none =>
      if c = '\'' || c = '"' then .next (quotedLength c rest) contexts
      else match Context.ofOpener? c with
        | some ctx => .next 0 (ctx :: contexts)
        | none =>
          if isCloser c then
            -- Brackets left open inside are closed along with the one that matches.
            match closeContext? c contexts with
            | some [] => .found
            | some outer => .next 0 outer
            | none => .next 0 contexts
          else .next 0 contexts

/-- A step in the given contexts, innermost first. -/
def bracketStep (contexts : List Context) (before : List Char) (c : Char) (rest : List Char) :
    Step :=
  match contexts with
  | .template :: outer => templateStep outer c rest
  | _ => codeStep contexts before c rest

/-- The length of the text before the character that closes the outermost context. `before` is
what has been passed since the opening bracket, nearest first, and `skip` characters more are to be
passed over. -/
def closeWalk? (contexts : List Context) (before : List Char) : Nat → List Char → Option Nat
  | _, [] => none
  | skip + 1, c :: rest => closeWalk? contexts (c :: before) skip rest
  | 0, c :: rest =>
    match bracketStep contexts before c rest with
    | .found => some before.length
    | .next skip contexts => closeWalk? contexts (c :: before) skip rest

/-- The number of characters between the opening character, which the text follows, and its
closer. -/
def closeLength? (opener : Char) (text : List Char) : Option Nat :=
  match Context.ofOpener? opener with
  | some ctx => closeWalk? [ctx] [] 0 text
  | none => none

/-- The text inside, when the whole of `s` is one bracketed text that starts with `opener`. -/
def enclosed? (opener : Char) : List Char → Option (List Char)
  | [] => none
  | c :: s =>
    if c = opener && closeLength? c s = some (s.length - 1) && !s.isEmpty then some s.dropLast
    else none

/-- What is between brackets is shorter than with them. -/
theorem length_enclosed?_lt {opener : Char} {s inner : List Char}
    (h : enclosed? opener s = some inner) : inner.length < s.length := by
  cases s with
  | nil => simp [enclosed?] at h
  | cons c s =>
    rw [enclosed?] at h
    split at h
    · cases h
      rw [List.length_dropLast, List.length_cons]
      exact Nat.lt_succ_of_le (Nat.sub_le _ _)
    · simp at h

end ComponentAudit.Script
