import ComponentAudit.Proofs.Text.Search
import ComponentAudit.Script.Expression

/-!
# Expressions that are bare already

Before an expression is classified, blanks, outer parentheses and the endings `as const` and `!` are
taken off. `bareExpression_eq_self` says when nothing is taken off: no blank stands at either end,
the text does not begin with a parenthesis, and it has neither ending.
-/

namespace ComponentAudit

/-! ### Trimming -/

namespace Text

theorem trimStart_cons {c : Char} (h : isBlank c = false) (s : List Char) :
    trimStart (c :: s) = c :: s := by
  rw [trimStart, List.dropWhile_cons_of_neg (by simp [h])]

theorem trimEnd_concat {c : Char} (h : isBlank c = false) (s : List Char) :
    trimEnd (s ++ [c]) = s ++ [c] := by
  rw [trimEnd, List.reverse_append, List.reverse_singleton, List.singleton_append,
    List.dropWhile_cons_of_neg (by simp [h])]
  simp

theorem trimEnd_cons {c : Char} (h : isBlank c = false) (s : List Char) :
    trimEnd (c :: s) = c :: trimEnd s := by
  rw [trimEnd, List.reverse_cons, List.dropWhile_append, trimEnd]
  split
  · next hnil => simp [List.isEmpty_iff.1 hnil, h]
  · simp

/-- A text without blanks at its ends is trimmed already. -/
theorem trim_eq_self {s : List Char} (hhead : ∀ c ∈ s.head?, isBlank c = false)
    (hlast : ∀ c ∈ s.getLast?, isBlank c = false) : trim s = s := by
  have hstart : trimStart s = s := by
    cases s with
    | nil => rfl
    | cons c s => exact trimStart_cons (hhead c rfl) s
  rw [trim, hstart]
  rcases List.eq_nil_or_concat s with rfl | ⟨t, c, rfl⟩
  · rfl
  · rw [List.concat_eq_append]
    exact trimEnd_concat (hlast c (by simp)) t

/-- A text between two characters that are no blanks is trimmed already. -/
theorem trim_enclosed {first last : Char} (hfirst : isBlank first = false)
    (hlast : isBlank last = false) (s : List Char) :
    trim (first :: (s ++ [last])) = first :: (s ++ [last]) := by
  rw [trim, trimStart_cons hfirst, ← List.cons_append, trimEnd_concat hlast]

/-- Blanks at the end are trimmed. -/
theorem trimEnd_append_blanks {after : List Char} (hafter : ∀ c ∈ after, isBlank c = true)
    (s : List Char) : trimEnd (s ++ after) = trimEnd s := by
  rw [trimEnd, List.reverse_append, List.dropWhile_append_of_pos (by simpa using hafter), trimEnd]

/-- Blanks around a text are trimmed with those of the text. -/
theorem trim_append_blanks {before after : List Char} (hbefore : ∀ c ∈ before, isBlank c = true)
    (hafter : ∀ c ∈ after, isBlank c = true) (s : List Char) :
    trim (before ++ s ++ after) = trim s := by
  rw [trim, trim, List.append_assoc, trimStart, List.dropWhile_append_of_pos hbefore,
    List.dropWhile_append, trimStart]
  split
  · next hnil =>
    -- Nothing but blanks is left of the text and behind it.
    have hnone : after.dropWhile isBlank = [] := by
      rw [← List.append_nil after, List.dropWhile_append_of_pos hafter, List.dropWhile_nil]
    rw [List.isEmpty_iff.1 hnil, hnone]
  · exact trimEnd_append_blanks hafter _

theorem stripEnd?_eq_some_iff {ending s rest : List Char} :
    stripEnd? ending s = some rest ↔ s = rest ++ ending := by
  rw [stripEnd?, Option.map_eq_some_iff]
  constructor
  · rintro ⟨t, ht, rfl⟩
    have hs := congrArg List.reverse (stripStart?_eq_some_iff.1 ht)
    simpa using hs
  · rintro rfl
    exact ⟨rest.reverse, stripStart?_eq_some_iff.2 (by simp), by simp⟩

end Text

/-! ### Laying bare -/

namespace Script

theorem stripSuffix_eq_self {ending e : List Char} (h : ¬ ending <:+ e) :
    stripSuffix ending e = e := by
  rw [stripSuffix]
  split
  · next s hs => exact absurd ⟨s, (Text.stripEnd?_eq_some_iff.1 hs).symm⟩ h
  · rfl

/-- The ending is taken off with the blanks before it. -/
theorem stripSuffix_append (ending s : List Char) :
    stripSuffix ending (s ++ ending) = Text.trimEnd s := by
  rw [stripSuffix, Text.stripEnd?_eq_some_iff.2 rfl]

/-- Without a parenthesis in front there is nothing to unwrap. -/
theorem unwrap_eq_self {e : List Char} (h : e.head? ≠ some '(') : unwrap e = e := by
  have hnone : enclosed? '(' e = none := by
    cases e with
    | nil => rfl
    | cons c s =>
      have hc : c ≠ '(' := by simpa using h
      simp [enclosed?, hc]
  rw [unwrap]
  split
  · next inner hinner => rw [hnone] at hinner; cases hinner
  · rfl

/-- Parentheses are unwrapped one by one. -/
theorem unwrap_of_enclosed? {e inner : List Char} (h : enclosed? '(' e = some inner) :
    unwrap e = unwrap (Text.trim inner) := by
  rw [unwrap]
  split
  · next inner' hinner =>
    obtain rfl : inner = inner' := Option.some.inj (h.symm.trans hinner)
    rfl
  · next hnone => rw [h] at hnone; cases hnone

/-- Nothing is taken off an expression without blanks at its ends, outer parentheses and
endings. -/
theorem bareExpression_eq_self {e : List Char} (hhead : ∀ c ∈ e.head?, Text.isBlank c = false)
    (hlast : ∀ c ∈ e.getLast?, Text.isBlank c = false) (hopen : e.head? ≠ some '(')
    (hconst : ¬ "as const".toList <:+ e) (hbang : ¬ ['!'] <:+ e) : bareExpression e = e := by
  rw [bareExpression, Text.trim_eq_self hhead hlast, unwrap_eq_self hopen,
    stripSuffix_eq_self hconst, stripSuffix_eq_self hbang]

/-! ### Numbers -/

private theorem isPlainNumber_of_head {e : List Char}
    (h : ∀ c ∈ e.head?, Text.isDigit c = false ∧ c ≠ '.') : isPlainNumber e = false := by
  cases e with
  | nil => rfl
  | cons c s =>
    obtain ⟨hdigit, hpoint⟩ := h c rfl
    have hzero : c ≠ '0' := by
      rintro rfl
      revert hdigit
      decide
    have hradix : isRadixNumber (c :: s) = false := by
      unfold isRadixNumber
      split <;> simp_all
    have hdot : isPointNumber (c :: s) = false := by
      unfold isPointNumber
      split <;> simp_all
    rw [isPlainNumber, hradix, hdot, isDecimal, hdigit]
    rfl

/-- A number begins with a digit, a point or a minus sign. -/
theorem isNumber_of_head {e : List Char}
    (h : ∀ c ∈ e.head?, Text.isDigit c = false ∧ c ≠ '.' ∧ c ≠ '-') : isNumber e = false := by
  have hminus : Text.stripStart? ['-'] e = none := by
    cases e with
    | nil => rfl
    | cons c s => simp [Text.stripStart?, Ne.symm (h c rfl).2.2]
  have hplain : isPlainNumber e = false :=
    isPlainNumber_of_head fun c hc => ⟨(h c hc).1, (h c hc).2.1⟩
  rw [isNumber, hminus, Option.getD_none, hplain, Bool.false_or]
  cases hend : Text.stripEnd? ['n'] e with
  | none => rfl
  | some s =>
    -- What precedes the suffix is empty or begins as the whole does.
    have he : e = s ++ ['n'] := Text.stripEnd?_eq_some_iff.1 hend
    refine isPlainNumber_of_head fun c hc => ?_
    have hc' : c ∈ e.head? := by
      cases s with
      | nil => cases hc
      | cons d s => rw [he]; exact hc
    exact ⟨(h c hc').1, (h c hc').2.1⟩

/-! ### Strings -/

/-- What is read as a string begins with a quote or a backtick. -/
theorem head?_of_readString {e : List Char} (h : readString e ≠ .other) :
    ∃ c, e.head? = some c ∧ (c = '\'' ∨ c = '"' ∨ c = '`') := by
  cases e with
  | nil => exact absurd rfl h
  | cons c s =>
    refine ⟨c, rfl, ?_⟩
    rw [readString] at h
    split at h
    · next hquote =>
      rw [← or_assoc]
      exact .inl (by simpa using hquote)
    · split at h
      · next htick => exact .inr (.inr htick)
      · exact absurd rfl h

/-- An expression that is read as a string is nothing else. -/
theorem classifyBare_of_readString {e : List Char} (h : readString e ≠ .other) :
    classifyBare e =
      match readString e with
      | .text s => some (.string (String.ofList s))
      | _ => none := by
  obtain ⟨c, hhead, hc⟩ := head?_of_readString h
  have hword : ∀ w : List Char, w.head? ∉ [some '\'', some '"', some '`'] → e ≠ w := by
    rintro w hw rfl
    rw [hhead] at hw
    rcases hc with rfl | rfl | rfl <;> exact hw (by decide)
  have hnumber : isNumber e = false := by
    refine isNumber_of_head fun d hd => ?_
    obtain rfl : c = d := Option.some.inj (hhead.symm.trans hd)
    rcases hc with rfl | rfl | rfl <;> decide
  rw [classifyBare]
  simp only [hword [] (by decide), hword "null".toList (by decide),
    hword "undefined".toList (by decide), hword "true".toList (by decide),
    hword "false".toList (by decide), hnumber, decide_false, Bool.or_self, Bool.false_eq_true,
    if_false]
  cases hread : readString e with
  | other => exact absurd hread h
  | text s => rfl
  | unreadable => rfl

/-- An expression has the value of a string exactly if it is read as that string. -/
theorem classifyBare_eq_string_iff {e : List Char} {s : String} :
    classifyBare e = some (.string s) ↔ readString e = .text s.toList := by
  constructor
  · intro h
    have hread : readString e ≠ .other := by
      intro hother
      rw [classifyBare, hother] at h
      dsimp only at h
      repeat' split at h
      all_goals cases h
    rw [classifyBare_of_readString hread] at h
    split at h
    · next content htext =>
      cases h
      rw [htext, String.toList_ofList]
    · cases h
  · intro h
    rw [classifyBare_of_readString (by rw [h]; simp), h]
    simp

end Script

end ComponentAudit
