import ComponentAudit.Proofs.Script.Literal

/-!
# Literals in parentheses

A string literal keeps its value when `as const` stands behind it and when it is put in parentheses,
with blanks in them and around them (`Wrapped`).

Laying the expression bare takes all of that off again and stops at the literal
(`Wrapped.bareExpression_eq`). Whatever stands between the quotes, the closing parenthesis of each
pair is found behind the literal, since the search for it crosses the literal and everything around
it (`Wrapped.crosses`).
-/

namespace ComponentAudit.Script

open Written (Quoted)

/-- What may stand around a literal: `as const` directly behind it, then blanks and pairs of
parentheses in any number and order. -/
inductive Wrapped (literal : List Char) : List Char → Prop
  | bare : Wrapped literal literal
  | asConst : Wrapped literal (literal ++ " as const".toList)
  | blanks {before e after : List Char} : (∀ c ∈ before, Text.isBlank c = true) →
      Wrapped literal e → (∀ c ∈ after, Text.isBlank c = true) →
      Wrapped literal (before ++ e ++ after)
  | parenthesized {e : List Char} : Wrapped literal e → Wrapped literal ('(' :: (e ++ [')']))

/-! ### Literals -/

/-- The walk gets through a string literal. -/
theorem StringLiteral.crosses {e content : List Char} (h : StringLiteral e content) :
    Crosses e := by
  cases h with
  | quoted hquote hbody => exact crosses_quoted hquote hbody
  | template hbody hinsert => exact crosses_template (hbody.reachesTick hinsert)

/-- A literal begins and ends with its quote. -/
theorem StringLiteral.exists_eq {e content : List Char} (h : StringLiteral e content) :
    ∃ quote body, e = quote :: (body ++ [quote]) ∧ quote ∈ ['\'', '"', '`'] := by
  cases h with
  | quoted hquote _ => exact ⟨_, _, rfl, by rcases hquote with rfl | rfl <;> decide⟩
  | template _ _ => exact ⟨_, _, rfl, by decide⟩

/-- A written string is a literal of its content. -/
theorem stringLiteral_print (q : Quoted) : StringLiteral q.print q.content := by
  have hliteral := StringLiteral.quoted q.isQuote q.literalBody_body
  rwa [q.unescape_body] at hliteral

/-! ### Laying bare -/

/-- Nothing is taken off a quote at an end of an expression. -/
theorem ne_of_mem_quotes {c : Char} (h : c ∈ ['\'', '"', '`']) :
    Text.isBlank c = false ∧ c ≠ '(' ∧ c ≠ 't' ∧ c ≠ '!' := by
  simp only [List.mem_cons, List.not_mem_nil, or_false] at h
  rcases h with rfl | rfl | rfl <;> decide

theorem isPlain_of_isBlank {c : Char} (h : Text.isBlank c = true) : isPlain c = true := by
  refine decide_eq_true fun hc => ?_
  simp only [List.mem_cons, List.not_mem_nil, or_false] at hc
  rcases hc with rfl | rfl | rfl | rfl | rfl | rfl | rfl | rfl | rfl | rfl <;>
    exact absurd h (by decide)

private theorem crosses_blanks {s : List Char} (h : ∀ c ∈ s, Text.isBlank c = true) : Crosses s :=
  crosses_of_isInert fun c hc => isInert_of_isPlain (isPlain_of_isBlank (h c hc))

namespace StringLiteral

variable {literal content : List Char}

private theorem trimEnd_eq_self (h : StringLiteral literal content) :
    Text.trimEnd literal = literal := by
  obtain ⟨quote, body, rfl, hquote⟩ := h.exists_eq
  exact Text.trimEnd_concat (ne_of_mem_quotes hquote).1 (quote :: body)

/-- There is nothing to unwrap in a literal. -/
theorem unwrap_trim (h : StringLiteral literal content) : unwrap (Text.trim literal) = literal := by
  obtain ⟨quote, body, rfl, hquote⟩ := h.exists_eq
  obtain ⟨hblank, hopen, -⟩ := ne_of_mem_quotes hquote
  rw [Text.trim_enclosed hblank hblank, unwrap_eq_self (by simpa using hopen)]

/-- Nor in one that is declared constant. -/
theorem unwrap_trim_asConst (h : StringLiteral literal content) :
    unwrap (Text.trim (literal ++ " as const".toList)) = literal ++ " as const".toList := by
  obtain ⟨quote, body, rfl, hquote⟩ := h.exists_eq
  obtain ⟨hblank, hopen, -⟩ := ne_of_mem_quotes hquote
  have htext : quote :: (body ++ [quote]) ++ " as const".toList =
      quote :: ((body ++ quote :: " as cons".toList) ++ ['t']) := by simp
  rw [htext, Text.trim_enclosed hblank (by decide), unwrap_eq_self (by simpa using hopen)]

/-- A string literal has no such ending. -/
theorem stripSuffix_eq_self (h : StringLiteral literal content) (ending : List Char) {c : Char}
    (hc : c = 't' ∨ c = '!') : stripSuffix (ending ++ [c]) literal = literal := by
  obtain ⟨quote, body, rfl, hquote⟩ := h.exists_eq
  obtain ⟨-, -, ht, hbang⟩ := ne_of_mem_quotes hquote
  refine Script.stripSuffix_eq_self fun hsuffix => ?_
  obtain ⟨t, heq⟩ := hsuffix
  have hlast := congrArg List.getLast? heq
  rw [← List.append_assoc, List.getLast?_concat, ← List.cons_append, List.getLast?_concat] at hlast
  obtain rfl : c = quote := Option.some.inj hlast
  rcases hc with rfl | rfl
  · exact ht rfl
  · exact hbang rfl

end StringLiteral

namespace Wrapped

variable {literal content e : List Char}

/-- What stands around a literal leaves open what was open, as the literal does. -/
theorem crosses (hliteral : Crosses literal) (h : Wrapped literal e) : Crosses e := by
  induction h with
  | bare => exact hliteral
  | asConst => exact hliteral.append (crosses_of_isInert (List.all_eq_true.1 rfl))
  | blanks hbefore _ hafter ih =>
    exact ((crosses_blanks hbefore).append ih).append (crosses_blanks hafter)
  | parenthesized _ ih => exact ih.bracketed rfl

/-- Blanks and parentheses are taken off down to the literal, with `as const` if it has that. -/
theorem unwrap_trim (hliteral : StringLiteral literal content) (h : Wrapped literal e) :
    unwrap (Text.trim e) = literal ∨ unwrap (Text.trim e) = literal ++ " as const".toList := by
  induction h with
  | bare => exact .inl hliteral.unwrap_trim
  | asConst => exact .inr hliteral.unwrap_trim_asConst
  | blanks hbefore _ hafter ih => rwa [Text.trim_append_blanks hbefore hafter]
  | @parenthesized e he ih =>
    have hclose : closeLength? '(' (e ++ [')']) = some e.length :=
      closeLength?_of_crosses (he.crosses hliteral.crosses) rfl []
    rwa [Text.trim_enclosed (by decide) (by decide),
      unwrap_of_enclosed? (enclosed?_eq_some_iff.2 ⟨')', rfl, hclose⟩)]

/-- Laying the expression bare leaves the literal. -/
theorem bareExpression_eq (hliteral : StringLiteral literal content) (h : Wrapped literal e) :
    bareExpression e = literal := by
  have hconst : stripSuffix "as const".toList literal = literal :=
    hliteral.stripSuffix_eq_self "as cons".toList (.inl rfl)
  have hbang : stripSuffix ['!'] literal = literal :=
    hliteral.stripSuffix_eq_self [] (.inr rfl)
  rw [bareExpression]
  rcases h.unwrap_trim hliteral with hbare | hsuffixed
  · rw [hbare, hconst, hbang]
  · have hends : literal ++ " as const".toList = (literal ++ [' ']) ++ "as const".toList := by simp
    rw [hsuffixed, hends, stripSuffix_append, Text.trimEnd_append_blanks (List.all_eq_true.1 rfl),
      hliteral.trimEnd_eq_self, hbang]

/-- **Wrapped literals.** Whatever blanks, parentheses and assertions stand around it, a string
literal is classified as its content. -/
theorem classify_eq (hliteral : StringLiteral literal content) (h : Wrapped literal e) :
    classify e = some (.string (String.ofList content)) := by
  have hread := readString_of_stringLiteral hliteral
  rw [classify, h.bareExpression_eq hliteral, classifyBare_of_readString (by rw [hread]; simp),
    hread]

end Wrapped

/-- **Literals keep their value.** A string that is written between quotes is the literal of its
content, whatever the content, and so is a text between backticks without backticks, backslashes and
insertions. Blanks, parentheses and `as const` around the literal change nothing. -/
theorem classify_of_wrapped :
    (∀ (q : Quoted) (e : List Char), Wrapped q.print e →
        classify e = some (.string (String.ofList q.content))) ∧
      ∀ content e : List Char, (∀ c ∈ content, c ≠ '\\' ∧ c ≠ '`') →
        ¬ ['$', '\x7b'] <:+: content → Wrapped ('`' :: (content ++ ['`'])) e →
        classify e = some (.string (String.ofList content)) := by
  refine ⟨fun q e h => h.classify_eq (stringLiteral_print q), fun content e hplain hinsert h => ?_⟩
  have hbody : LiteralBody ['`'] content := .of_forall (by simpa using hplain)
  exact h.classify_eq (.template hbody hinsert)

/-- A closing parenthesis and a quote in a string, and an opening parenthesis between backticks. -/
theorem classify_of_wrapped_parenthesis :
    let q : Quoted := ⟨'\'', .inl rfl, [')', '\'']⟩
    (Wrapped q.print "( ')\\'' as const )".toList ∧
        classify "( ')\\'' as const )".toList = some (.string ")'")) ∧
      Wrapped "`(`".toList "(`(`)\n".toList ∧ classify "(`(`)\n".toList = some (.string "(") := by
  intro q
  have hquoted : Wrapped q.print "( ')\\'' as const )".toList := by
    have htext : "( ')\\'' as const )".toList =
        '(' :: ([' '] ++ (q.print ++ " as const".toList) ++ [' '] ++ [')']) := by decide
    rw [htext]
    exact .parenthesized (.blanks (List.all_eq_true.1 rfl) .asConst (List.all_eq_true.1 rfl))
  have htemplate : Wrapped "`(`".toList "(`(`)\n".toList := by
    have htext : "(`(`)\n".toList = [] ++ '(' :: ("`(`".toList ++ [')']) ++ ['\n'] := by decide
    rw [htext]
    exact .blanks (List.all_eq_true.1 rfl) (.parenthesized .bare) (List.all_eq_true.1 rfl)
  obtain ⟨hstrings, htemplates⟩ := classify_of_wrapped
  have hinsert : ¬ ['$', '\x7b'] <:+: ['('] := by decide
  exact ⟨⟨hquoted, hstrings q _ hquoted⟩, htemplate,
    htemplates ['('] _ (by simp) hinsert htemplate⟩

end ComponentAudit.Script
