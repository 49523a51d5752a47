import ComponentAudit.Proofs.Script.Bracket
import ComponentAudit.Proofs.Script.Expression

/-!
# Written strings

A string is written between two quotes of one kind, with a backslash before each backslash and each
quote of that kind, and `\n` for a line feed. The readers of the project all agree on it: it ends
where it is written to end (`Quoted.quotedLength_body`), it stands for its content
(`Quoted.unescape_body`), and as an expression it is the literal of its content
(`Quoted.classify_print`).
-/

namespace ComponentAudit.Written

open Script (LiteralBody quotedLength unescape)

/-- A string with the quotes that it is written in. -/
structure Quoted where
  quote : Char
  isQuote : quote = '\'' ∨ quote = '"'
  content : List Char

/-- A character as it is written between quotes. -/
def escape (quote c : Char) : List Char :=
  if c = '\\' || c = quote then ['\\', c] else if c = '\n' then ['\\', 'n'] else [c]

/-- What stands between the quotes. -/
def Quoted.body (q : Quoted) : List Char := q.content.flatMap (escape q.quote)

/-- The text of a string. -/
def Quoted.print (q : Quoted) : List Char := q.quote :: (q.body ++ [q.quote])

/-! ### Where strings end -/

private theorem unescape_cons {c : Char} (hc : c ≠ '\\') (s : List Char) :
    unescape (c :: s) = c :: unescape s := by
  rw [unescape]
  · exact fun h => absurd h hc
  · exact fun _ _ h => absurd h hc

private theorem literalBody_escape_append {quote : Char} (c : Char) {s : List Char}
    (h : LiteralBody [quote, '\n'] s) : LiteralBody [quote, '\n'] (escape quote c ++ s) := by
  rw [escape]
  split
  · exact .escape c h
  · next hplain =>
    split
    · exact .escape 'n' h
    · next hfeed =>
      simp only [Bool.or_eq_true, decide_eq_true_eq, not_or] at hplain
      exact .plain hplain.1 (by simp [hplain.2, hfeed]) h

/-- What is escaped is unescaped. -/
theorem unescape_escape {quote : Char} (hquote : quote = '\'' ∨ quote = '"') (c : Char)
    (s : List Char) : unescape (escape quote c ++ s) = c :: unescape s := by
  rw [escape]
  split
  · next h =>
    have hc : c ≠ 'n' ∧ c ≠ 't' := by
      simp only [Bool.or_eq_true, decide_eq_true_eq] at h
      rcases hquote with rfl | rfl <;> rcases h with rfl | rfl <;> decide
    simp [unescape, hc.1, hc.2]
  · next h =>
    simp only [Bool.or_eq_true, decide_eq_true_eq, not_or] at h
    split
    · next hfeed => simp [unescape, hfeed]
    · exact unescape_cons h.1 s

namespace Quoted

variable (q : Quoted)

theorem isBlank_quote : Text.isBlank q.quote = false := by
  rcases q.isQuote with h | h <;> rw [h] <;> decide

/-- The escaped text is the body of a literal. -/
theorem literalBody_body : LiteralBody [q.quote, '\n'] q.body := by
  rw [body]
  induction q.content with
  | nil => exact .nil
  | cons c content ih => exact literalBody_escape_append c ih

/-- A string ends at its closing quote. -/
theorem quotedLength_body (rest : List Char) :
    quotedLength q.quote (q.body ++ q.quote :: rest) = q.body.length + 1 :=
  q.literalBody_body.quotedLength_append q.isQuote rest

/-- A string stands for its content. -/
theorem unescape_body : unescape q.body = q.content := by
  rw [body]
  induction q.content with
  | nil => rfl
  | cons c content ih => rw [List.flatMap_cons, unescape_escape q.isQuote, ih]

/-- The search for a closing bracket gets through a literal. -/
theorem crosses : Script.Crosses q.print := Script.crosses_quoted q.isQuote q.literalBody_body

/-! ### Strings as expressions -/

/-- A literal begins with its quote. -/
theorem head?_print : q.print.head? = some q.quote := rfl

/-- It ends with its quote. -/
theorem getLast?_print : q.print.getLast? = some q.quote := by
  rw [print, ← List.cons_append, List.getLast?_concat]

private theorem eq_quote_of_suffix {s : List Char} {c : Char} (h : s ++ [c] <:+ q.print) :
    c = q.quote := by
  obtain ⟨t, ht⟩ := h
  have hlast := q.getLast?_print
  rw [← ht, ← List.append_assoc, List.getLast?_concat] at hlast
  exact Option.some.inj hlast

/-- The content of a literal is read back. -/
theorem readString_print : Script.readString q.print = .text q.content := by
  have hor : (decide (q.quote = '\'') || decide (q.quote = '"')) = true := by simpa using q.isQuote
  have hlength : quotedLength q.quote (q.body ++ [q.quote]) = (q.body ++ [q.quote]).length := by
    simpa using q.quotedLength_body []
  have hsize : q.quote.utf8Size = 1 := by rcases q.isQuote with h | h <;> rw [h] <;> decide
  rw [print, Script.readString, if_pos hor]
  simp [hlength, hsize, q.unescape_body]

private theorem bareExpression_print : Script.bareExpression q.print = q.print := by
  refine Script.bareExpression_eq_self (fun c hc => ?_) (fun c hc => ?_) ?_ ?_ ?_
  · rw [head?_print, Option.mem_some_iff] at hc
    exact hc ▸ q.isBlank_quote
  · rw [getLast?_print, Option.mem_some_iff] at hc
    exact hc ▸ q.isBlank_quote
  · rw [head?_print]
    rcases q.isQuote with h | h <;> rw [h] <;> decide
  · intro hsuffix
    have hlast : 't' = q.quote := q.eq_quote_of_suffix (s := "as cons".toList) hsuffix
    rcases q.isQuote with h | h <;> rw [h] at hlast <;> revert hlast <;> decide
  · intro hsuffix
    have hlast : '!' = q.quote := q.eq_quote_of_suffix (s := []) hsuffix
    rcases q.isQuote with h | h <;> rw [h] at hlast <;> revert hlast <;> decide

/-- As an expression, a string is the literal of its content. -/
theorem classify_print : Script.classify q.print = some (.string (String.ofList q.content)) := by
  rw [Script.classify, bareExpression_print,
    Script.classifyBare_of_readString (by rw [q.readString_print]; simp), q.readString_print]

end Quoted

end ComponentAudit.Written
