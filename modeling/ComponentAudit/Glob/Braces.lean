/-!
# Brace alternatives

A pattern such as `**/*.{js,vue}` stands for several patterns without braces. The first group is
replaced by each of its alternatives in turn, and what results is expanded again, so groups may be
nested. A pattern whose first brace is never closed stands for itself.

Each replacement takes one opening brace away, which bounds the expansion.
-/

namespace ComponentAudit.Glob

/-- The alternatives of a group after its opening brace, and the text after its closing brace.
`depth` counts the groups open inside, and `current` holds the alternative that is being read, last
character first. -/
def groupWalk? (depth : Nat) (current : List Char) :
    List Char → Option (List (List Char) × List Char)
  | [] => none
  | c :: s =>
    if c = '\x7b' then groupWalk? (depth + 1) (c :: current) s
    else if c = '\x7d' then
      if depth = 0 then some ([current.reverse], s) else groupWalk? (depth - 1) (c :: current) s
    else if c = ',' ∧ depth = 0 then
      (groupWalk? 0 [] s).map fun (alternatives, tail) => (current.reverse :: alternatives, tail)
    else groupWalk? depth (c :: current) s

/-- The text before the first group, its alternatives and the text after it. -/
def firstGroup? (pattern : List Char) : Option (List Char × List (List Char) × List Char) :=
  match pattern.dropWhile (· ≠ '\x7b') with
  | [] => none
  | _ :: s =>
    (groupWalk? 0 [] s).map fun (alternatives, tail) =>
      (pattern.takeWhile (· ≠ '\x7b'), alternatives, tail)

/-! ### Fewer braces -/

private theorem count_tail_le {s : List Char} :
    ∀ {depth : Nat} {current : List Char} {alternatives : List (List Char)} {tail : List Char},
      groupWalk? depth current s = some (alternatives, tail) →
      tail.count '\x7b' ≤ s.count '\x7b' := by
  induction s with
  | nil => intro _ _ _ _ h; simp [groupWalk?] at h
  | cons c s ih =>
    intro depth current alternatives tail h
    have hs : s.count '\x7b' ≤ (c :: s).count '\x7b' := by
      rw [List.count_cons]
      omega
    rw [groupWalk?] at h
    split at h
    · exact Nat.le_trans (ih h) hs
    · split at h
      · split at h
        · cases h
          exact hs
        · exact Nat.le_trans (ih h) hs
      · split at h
        · obtain ⟨⟨as, t⟩, ht, heq⟩ := Option.map_eq_some_iff.1 h
          cases heq
          exact Nat.le_trans (ih ht) hs
        · exact Nat.le_trans (ih h) hs

private theorem count_alternative_le {s : List Char} :
    ∀ {depth : Nat} {current : List Char} {alternatives : List (List Char)} {tail : List Char},
      groupWalk? depth current s = some (alternatives, tail) → ∀ a ∈ alternatives,
      a.count '\x7b' + tail.count '\x7b' ≤ current.count '\x7b' + s.count '\x7b' := by
  induction s with
  | nil => intro _ _ _ _ h; simp [groupWalk?] at h
  | cons c s ih =>
    intro depth current alternatives tail h a ha
    -- A character that goes to the alternative being read only moves from one side to the other,
    -- whatever the depth.
    have hstep : ∀ {depth : Nat}, groupWalk? depth (c :: current) s = some (alternatives, tail) →
        a.count '\x7b' + tail.count '\x7b' ≤ current.count '\x7b' + (c :: s).count '\x7b' := by
      intro depth h
      have := ih h a ha
      simp only [List.count_cons] at this ⊢
      omega
    have htail : tail.count '\x7b' ≤ (c :: s).count '\x7b' := count_tail_le h
    rw [groupWalk?] at h
    split at h
    · exact hstep h
    · split at h
      · split at h
        · cases h
          rw [List.mem_singleton.1 ha, List.count_reverse]
          omega
        · exact hstep h
      · split at h
        · obtain ⟨⟨as, t⟩, ht, heq⟩ := Option.map_eq_some_iff.1 h
          cases heq
          rcases List.mem_cons.1 ha with rfl | ha
          · rw [List.count_reverse]
            omega
          · have := ih ht a ha
            simp only [List.count_nil, List.count_cons] at this ⊢
            omega
        · exact hstep h

/-- An alternative in the place of its group opens fewer braces. -/
theorem count_replaced_lt {pattern front tail a : List Char} {alternatives : List (List Char)}
    (h : firstGroup? pattern = some (front, alternatives, tail)) (ha : a ∈ alternatives) :
    (front ++ a ++ tail).count '\x7b' < pattern.count '\x7b' := by
  have hsplit := List.takeWhile_append_dropWhile (p := fun c => decide (c ≠ '\x7b')) (l := pattern)
  rw [firstGroup?] at h
  split at h
  · simp at h
  · next c s hs =>
    have hc : c = '\x7b' := by
      have := List.head?_dropWhile_not (fun c => decide (c ≠ '\x7b')) pattern
      rw [hs] at this
      simpa using this
    obtain ⟨⟨as, t⟩, ht, heq⟩ := Option.map_eq_some_iff.1 h
    cases heq
    have hle := count_alternative_le ht a ha
    have hcount := congrArg (List.count '\x7b') hsplit
    rw [hs, hc] at hcount
    simp only [List.count_append, List.count_cons_self, List.count_nil] at hle hcount ⊢
    omega

/-- The patterns without groups that a pattern stands for, with the alternatives of the leftmost
group changing slowest. -/
def expandBraces (pattern : List Char) : List (List Char) :=
  match _h : firstGroup? pattern with
  | none => [pattern]
  | some (front, alternatives, tail) =>
    alternatives.attach.flatMap fun ⟨a, _ha⟩ => expandBraces (front ++ a ++ tail)
termination_by pattern.count '\x7b'
decreasing_by exact count_replaced_lt _h _ha

end ComponentAudit.Glob
