import ComponentAudit.Text.Find

/-!
# What a search of a text finds

The searches of texts in terms of the parts of a text: `stripStart?` splits off a beginning,
`contains` asks for a part, and `find?` and `findChar?` answer with the length of what precedes the
first match.
-/

namespace ComponentAudit.Text

/-! ### Beginnings -/

/-- What is left behind a start. -/
theorem stripStart?_eq_some_iff {start s rest : List Char} :
    stripStart? start s = some rest ↔ s = start ++ rest := by
  induction start generalizing s with
  | nil => simp [stripStart?, eq_comm]
  | cons a start ih =>
    cases s with
    | nil => simp [stripStart?]
    | cons c s =>
      rw [stripStart?]
      split
      · next h => rw [ih, List.cons_append, List.cons.injEq, ← h, eq_self, true_and]
      · next h => simp [Ne.symm h]

/-- The check of a start finds prefixes. -/
theorem startsWith_iff_isPrefix {start s : List Char} :
    startsWith start s = true ↔ start <+: s := by
  rw [startsWith, Option.isSome_iff_exists]
  exact exists_congr fun rest => by rw [stripStart?_eq_some_iff, eq_comm]

/-! ### Places -/

private theorem isSome_findWhereFrom?_iff {p : List Char → Bool} {s : List Char} :
    ∀ {n : Nat}, (findWhereFrom? p n s).isSome = true ↔ ∃ t, t <:+ s ∧ p t = true := by
  induction s with
  | nil =>
    intro n
    simp only [findWhereFrom?, List.suffix_nil, exists_eq_left]
    split <;> simp_all
  | cons c s ih =>
    intro n
    simp only [findWhereFrom?, List.suffix_cons_iff]
    split
    · next h => exact ⟨fun _ => ⟨_, .inl rfl, h⟩, fun _ => rfl⟩
    · next h =>
      rw [ih]
      constructor
      · rintro ⟨t, ht, hp⟩
        exact ⟨t, .inr ht, hp⟩
      · rintro ⟨t, rfl | ht, hp⟩
        · exact absurd hp h
        · exact ⟨t, ht, hp⟩

/-- A text contains its parts and nothing else. -/
theorem contains_iff_isInfix {needle s : List Char} : contains needle s = true ↔ needle <:+: s := by
  rw [contains, find?, findWhere?, isSome_findWhereFrom?_iff, List.infix_iff_prefix_suffix]
  exact exists_congr fun t => by rw [startsWith_iff_isPrefix, and_comm]

private theorem findWhereFrom?_append {p : List Char → Bool} {s t : List Char} (hp : p t = true)
    (hs : ∀ u, u ≠ [] → u <:+ s → p (u ++ t) = false) :
    ∀ n : Nat, findWhereFrom? p n (s ++ t) = some (n + s.length) := by
  induction s with
  | nil =>
    intro n
    cases t <;> simp [findWhereFrom?, hp]
  | cons c s ih =>
    intro n
    have hc : p (c :: s ++ t) = false := hs (c :: s) (by simp) (List.suffix_refl _)
    rw [List.cons_append, findWhereFrom?, ← List.cons_append, hc,
      ih (fun u hu hsuffix => hs u hu (hsuffix.trans (List.suffix_cons c s)))]
    simp [Nat.add_comm, Nat.add_left_comm]

private theorem findWhereFrom?_eq_map (p : List Char → Bool) (s : List Char) :
    ∀ n : Nat, findWhereFrom? p n s = (findWhereFrom? p 0 s).map (· + n) := by
  induction s with
  | nil =>
    intro n
    simp only [findWhereFrom?]
    split <;> simp
  | cons c s ih =>
    intro n
    simp only [findWhereFrom?]
    split
    · simp
    · rw [ih (n + 1), ih (0 + 1), Option.map_map]
      congr 1
      funext k
      exact Nat.add_right_comm k n 1

/-- A search looks at one place after the other. -/
theorem findWhere?_cons (p : List Char → Bool) (c : Char) (s : List Char) :
    findWhere? p (c :: s) = if p (c :: s) then some 0 else (findWhere? p s).map (· + 1) := by
  rw [findWhere?, findWhereFrom?, findWhereFrom?_eq_map p s (0 + 1)]
  rfl

/-- A search stops at the first place where its condition holds. -/
theorem findWhere?_append {p : List Char → Bool} {s t : List Char} (hp : p t = true)
    (hs : ∀ u, u ≠ [] → u <:+ s → p (u ++ t) = false) : findWhere? p (s ++ t) = some s.length := by
  rw [findWhere?, findWhereFrom?_append hp hs, Nat.zero_add]

/-- The first occurrence behind a text without the character. -/
theorem findChar?_append {c : Char} {s : List Char} (hs : c ∉ s) (rest : List Char) :
    findChar? c (s ++ c :: rest) = some s.length := by
  refine findWhere?_append (by simp) fun u hu hsuffix => ?_
  obtain ⟨d, u, rfl⟩ := List.exists_cons_of_ne_nil hu
  have hd : d ≠ c := by
    rintro rfl
    exact hs (hsuffix.subset List.mem_cons_self)
  simpa using hd

/-- A needle is not found before its first character occurs. -/
theorem find?_append {c : Char} {needle s : List Char} (hs : c ∉ s) (rest : List Char) :
    find? (c :: needle) (s ++ c :: needle ++ rest) = some s.length := by
  rw [List.append_assoc]
  refine findWhere?_append ?_ fun u hu hsuffix => ?_
  · exact startsWith_iff_isPrefix.2 (List.prefix_append _ _)
  · obtain ⟨d, u, rfl⟩ := List.exists_cons_of_ne_nil hu
    have hd : c ≠ d := by
      rintro rfl
      exact hs (hsuffix.subset List.mem_cons_self)
    simp [startsWith, stripStart?, hd]

end ComponentAudit.Text
