import ComponentAudit.Script.Bracket

/-!
# Splitting at the top level

`splitTopLevel` cuts a text at the separators that stand outside brackets, strings, comments and
template literals. An opening bracket without its closer takes the rest of the text.

Nothing is lost: the pieces with the separators between them are the text, and in particular no
piece is longer than the text.
-/

namespace ComponentAudit.Script

/-- The number of characters to pass over after `c` at the top level of a text, so that what `c`
starts is not looked into. -/
def topLevelSkip (c : Char) (rest : List Char) : Nat :=
  match commentLength? (c :: rest) with
  | some n => n - 1
  | none =>
    if c = '\'' || c = '"' then quotedLength c rest
    else if (Context.ofOpener? c).isSome then
      match closeLength? c rest with
      | some n => n + 1
      | none => rest.length
    else 0

/-- Whether `c` starts a token of its own at the top level: a comment, a string or a bracket. -/
def opensToken (c : Char) (rest : List Char) : Bool :=
  (commentLength? (c :: rest)).isSome || c = '\'' || c = '"' || (Context.ofOpener? c).isSome

/-- The pieces of a text. `piece` holds the characters of the current one, last first, and `skip`
characters are still to be passed over. -/
def splitWalk (sep : Char) (piece : List Char) : Nat → List Char → List (List Char)
  | _, [] => [piece.reverse]
  | skip + 1, c :: rest => splitWalk sep (c :: piece) skip rest
  | 0, c :: rest =>
    if opensToken c rest then splitWalk sep (c :: piece) (topLevelSkip c rest) rest
    else if c = sep then piece.reverse :: splitWalk sep [] 0 rest
    else splitWalk sep (c :: piece) 0 rest

/-- The pieces of the text between the separators at its top level; there is always one. -/
def splitTopLevel (sep : Char) (text : List Char) : List (List Char) := splitWalk sep [] 0 text

private theorem length_le_of_mem_splitWalk (sep : Char) (text : List Char) :
    ∀ (piece : List Char) (skip : Nat), ∀ p ∈ splitWalk sep piece skip text,
      p.length ≤ piece.length + text.length := by
  induction text with
  | nil =>
    intro piece skip p hp
    cases skip <;> simp_all [splitWalk]
  | cons c rest ih =>
    intro piece skip p hp
    have hnext : ∀ skip, p ∈ splitWalk sep (c :: piece) skip rest →
        p.length ≤ piece.length + (c :: rest).length := fun skip h => by
      have := ih _ _ p h
      simp only [List.length_cons] at this ⊢
      omega
    cases skip with
    | succ n => exact hnext n hp
    | zero =>
      rw [splitWalk] at hp
      split at hp
      · exact hnext _ hp
      · split at hp
        · rcases List.mem_cons.1 hp with rfl | hp
          · simp
          · have := ih _ _ p hp
            simp only [List.length_cons, List.length_nil] at this ⊢
            omega
        · exact hnext 0 hp

/-- No piece is longer than the text. -/
theorem length_le_of_mem_splitTopLevel {sep : Char} {text p : List Char}
    (h : p ∈ splitTopLevel sep text) : p.length ≤ text.length := by
  simpa using length_le_of_mem_splitWalk sep text [] 0 p h

end ComponentAudit.Script
