import ComponentAudit.Proofs.Offset.Literal
import ComponentAudit.Proofs.Script.Code

/-!
# String literals

`StringLiteral` describes the complete string literals: a text between two quotes in which no other
quote of the kind and no line feed stands without a backslash, or a text between two backticks in
which nothing is inserted.

The reader of expressions goes by the first character and by where the literal ends. A quoted
literal that is never closed ends with the text, as a closed one does, and the reader takes its last
character for the closing quote. So it reads the complete literals, and it reads the unterminated
ones too, without their last character (`readString_of_unterminated`). Nothing else is read as a
string (`stringLiteral_of_readString`).
-/

namespace ComponentAudit.Script

open Offset (RunsOut)

/-- A complete string literal, and the text that it stands for. -/
inductive StringLiteral : List Char → List Char → Prop
  | quoted {quote : Char} {body : List Char} : quote = '\'' ∨ quote = '"' →
      LiteralBody [quote, '\n'] body → StringLiteral (quote :: (body ++ [quote])) (unescape body)
  | template {body : List Char} : LiteralBody ['`'] body → ¬ ['$', '\x7b'] <:+: body →
      StringLiteral ('`' :: (body ++ ['`'])) body

/-- A quote with a text behind it in which no quote closes the literal and no line feed breaks it
off. -/
def Unterminated (e : List Char) : Prop :=
  ∃ quote rest last, e = quote :: (rest ++ [last]) ∧ (quote = '\'' ∨ quote = '"') ∧
    RunsOut quote (rest ++ [last])

/-! ### Quoted literals -/

section

variable {quote : Char} {s body : List Char}

/-- A literal that is closed does not run out. -/
theorem LiteralBody.not_runsOut (hquote : quote ≠ '\\') (h : LiteralBody [quote, '\n'] body) :
    ¬ RunsOut quote (body ++ [quote]) := by
  induction h with
  | nil =>
    intro hruns
    exact ((Offset.runsOut_cons_iff hquote).1 hruns).2.1 rfl
  | escape c _ ih => exact fun hruns => ih (Offset.runsOut_escape_iff.1 hruns)
  | plain hc _ _ ih => exact fun hruns => ih ((Offset.runsOut_cons_iff hc).1 hruns).2.2

end

/-! ### Template literals -/

private theorem not_opens_of_plain {c : Char} {s : List Char} (h : ¬ ['$', '\x7b'] <:+: c :: s) :
    ¬ (c = '$' ∧ s.head? = some '\x7b') := by
  rintro ⟨rfl, hhead⟩
  obtain ⟨t, rfl⟩ := List.head?_eq_some_iff.1 hhead
  exact h (List.prefix_append ['$', '\x7b'] t).isInfix

/-- The search inside a template literal comes to the first backtick that no backslash takes
along, when nothing is inserted. -/
theorem LiteralBody.reachesTick {body : List Char} (h : LiteralBody ['`'] body)
    (hinsert : ¬ ['$', '\x7b'] <:+: body) : ReachesTick body := by
  intro outer before rest
  induction h generalizing before with
  | nil => rfl
  | escape c _ ih =>
    have htail := fun hs => hinsert (List.infix_cons (List.infix_cons hs))
    rw [List.cons_append, List.cons_append, closeWalk?_template_escape, ih htail]
    simp
  | @plain c s hescape hends _ ih =>
    have htail := fun hs => hinsert (List.infix_cons hs)
    have hopen : ¬ (c = '$' ∧ (s ++ '`' :: rest).head? = some '\x7b') := by
      rintro ⟨rfl, hhead⟩
      refine not_opens_of_plain hinsert ⟨rfl, ?_⟩
      cases s with
      | nil => cases hhead
      | cons d s => exact hhead
    rw [List.cons_append, closeWalk?_template_char hescape (by simpa using hends) hopen, ih htail]
    simp

/-- Where the search inside a template literal ends, when nothing is inserted. -/
theorem exists_of_closeWalk?_template {before s : List Char} {k : Nat}
    (hinsert : ¬ ['$', '\x7b'] <:+: s) (h : closeWalk? [.template] before 0 s = some k) :
    ∃ body rest, LiteralBody ['`'] body ∧ s = body ++ '`' :: rest ∧
      k = before.length + body.length := by
  fun_induction unescape s generalizing before with
  | case1 => cases h
  | case2 => cases h
  | case3 c s ih =>
    rw [closeWalk?_template_escape] at h
    obtain ⟨body, rest, hbody, rfl, rfl⟩ :=
      ih (fun hs => hinsert (List.infix_cons (List.infix_cons hs))) h
    refine ⟨'\\' :: c :: body, rest, .escape c hbody, rfl, ?_⟩
    simp only [List.length_cons]
    omega
  | case4 c s hlone hescape ih =>
    have hc := Offset.ne_of_not_escape hlone hescape
    by_cases htick : c = '`'
    · subst htick
      rw [closeWalk?] at h
      cases h
      exact ⟨[], s, .nil, rfl, rfl⟩
    · rw [closeWalk?_template_char hc htick (not_opens_of_plain hinsert)] at h
      obtain ⟨body, rest, hbody, rfl, rfl⟩ := ih (fun hs => hinsert (List.infix_cons hs)) h
      refine ⟨c :: body, rest, .plain hc (by simpa using htick) hbody, rfl, ?_⟩
      simp only [List.length_cons]
      omega

/-- The backticks are no part of an insertion. -/
theorem infix_template_iff {body : List Char} :
    ['$', '\x7b'] <:+: '`' :: (body ++ ['`']) ↔ ['$', '\x7b'] <:+: body := by
  have hstart : ¬ ['$', '\x7b'] <+: '`' :: (body ++ ['`']) := by simp
  have hend : ¬ ['$', '\x7b'] <:+ body ++ ['`'] := by
    rintro ⟨t, ht⟩
    simpa using congrArg List.getLast? ht
  rw [List.infix_cons_iff, List.infix_concat_iff, or_iff_right hstart, or_iff_right hend]

/-! ### What is read as a string -/

/-- A complete literal does not run out. -/
theorem StringLiteral.not_unterminated {e content : List Char} (h : StringLiteral e content) :
    ¬ Unterminated e := by
  rintro ⟨quote, rest, last, heq, hquote, hruns⟩
  cases h with
  | quoted hquote' hbody =>
    obtain ⟨rfl, hrest⟩ := List.cons.inj heq
    rw [← hrest] at hruns
    exact hbody.not_runsOut (ne_of_isQuote hquote).1 hruns
  | template _ _ =>
    obtain ⟨rfl, -⟩ := List.cons.inj heq
    rcases hquote with h | h <;> cases h

/-- A literal that runs out loses its last character, or is unreadable if that is longer than a
byte. -/
theorem readString_of_unterminated {quote last : Char} {rest : List Char}
    (hquote : quote = '\'' ∨ quote = '"') (h : RunsOut quote (rest ++ [last])) :
    readString (quote :: (rest ++ [last])) =
      if last.utf8Size = 1 then .text (unescape rest) else .unreadable := by
  have hor : (decide (quote = '\'') || decide (quote = '"')) = true := by simpa using hquote
  rw [readString, if_pos hor, List.getLast?_concat, List.dropLast_concat]
  simp only [h.quotedLength_eq, if_true]

/-- **String literals.** A complete literal is read with its content. -/
theorem readString_of_stringLiteral {e content : List Char} (h : StringLiteral e content) :
    readString e = .text content := by
  cases h with
  | @quoted quote body hquote hbody =>
    have hor : (decide (quote = '\'') || decide (quote = '"')) = true := by simpa using hquote
    have hlength : quotedLength quote (body ++ [quote]) = (body ++ [quote]).length := by
      simpa using hbody.quotedLength_append hquote []
    have hsize : quote.utf8Size = 1 := Offset.utf8Size_of_lt (Offset.lt_of_isQuote hquote)
    rw [readString, if_pos hor, List.getLast?_concat, List.dropLast_concat]
    simp only [hlength, hsize, if_true]
  | template hbody hinsert =>
    have hclose := closeLength?_template (hbody.reachesTick hinsert) []
    have hinside := enclosed?_eq_some_iff.2 ⟨'`', rfl, hclose⟩
    have hplain : Text.contains ['$', '\x7b'] ('`' :: (content ++ ['`'])) = false := by
      rw [← Bool.not_eq_true, Text.contains_iff_isInfix, infix_template_iff]
      exact hinsert
    rw [readString, if_neg (by decide), if_pos rfl, hinside, hplain]
    rfl

/-- Nothing is read as a string but complete literals and unterminated ones. -/
theorem stringLiteral_of_readString {e : List Char} (h : readString e ≠ .other) :
    (∃ content, StringLiteral e content) ∨ Unterminated e := by
  cases e with
  | nil => exact absurd rfl h
  | cons c s =>
    rw [readString] at h
    split at h
    · next hquote =>
      have hquote : c = '\'' ∨ c = '"' := by simpa using hquote
      split at h
      · exact absurd rfl h
      · next last hlast =>
        split at h
        · next hlength =>
          rcases Offset.closed_or_runsOut hlength with ⟨body, hbody, rfl⟩ | hruns
          · exact .inl ⟨_, .quoted hquote hbody⟩
          · obtain ⟨rest, rfl⟩ := List.getLast?_eq_some_iff.1 hlast
            exact .inr ⟨c, rest, last, rfl, hquote, hruns⟩
        · exact absurd rfl h
    · split at h
      · split at h
        · next inner hinner =>
          split at h
          · exact absurd rfl h
          · next hplain =>
            obtain ⟨last, heq, hclose⟩ := enclosed?_eq_some_iff.1 hinner
            rw [Text.contains_iff_isInfix, heq] at hplain
            have hinsert : ¬ ['$', '\x7b'] <:+: inner ++ [last] :=
              fun hs => hplain (List.infix_cons hs)
            obtain ⟨body, rest, hbody, happend, hlength⟩ :=
              exists_of_closeWalk?_template hinsert hclose
            -- The closing backtick is the last character, so nothing is left behind it.
            obtain ⟨rfl, hlast⟩ := List.append_inj happend (by simpa using hlength)
            obtain ⟨rfl, rfl⟩ := List.cons.inj hlast
            rw [heq]
            exact .inl ⟨inner, .template hbody fun hs => hinsert (hs.trans
              (List.prefix_append inner _).isInfix)⟩
        · exact absurd rfl h
      · exact absurd rfl h

/-! ### Classification -/

/-- **Strings are complete literals, or unterminated ones.** Unless the expression, laid bare, is an
unterminated literal, its classification gives an answer, and the answer is a string exactly if the
expression is a complete literal of that string. An unterminated literal is no complete one and yet
is given a string, the text in front of its last character; there is no answer when that character
has several bytes. -/
theorem classify_string_iff (e : List Char) :
    (¬ Unterminated (bareExpression e) → classify e ≠ none ∧
        ∀ s, classify e = some (.string s) ↔ StringLiteral (bareExpression e) s.toList) ∧
      ∀ quote rest last, bareExpression e = quote :: (rest ++ [last]) →
        quote = '\'' ∨ quote = '"' → RunsOut quote (rest ++ [last]) →
        (∀ content, ¬ StringLiteral (bareExpression e) content) ∧ classify e =
          if last.utf8Size = 1 then some (.string (String.ofList (unescape rest))) else none := by
  refine ⟨fun hterminated => ⟨fun hnone => ?_, fun s => ?_⟩, fun quote rest last he hquote hruns =>
    ⟨fun content hliteral => ?_, ?_⟩⟩
  · obtain ⟨quote, rest, last, he, hquote, hruns, -⟩ :=
      (Offset.readString_eq_unreadable_iff _).1 ((Offset.classifyBare_eq_none_iff _).1 hnone)
    exact hterminated ⟨quote, rest, last, he, hquote, hruns⟩
  · rw [classify, classifyBare_eq_string_iff]
    refine ⟨fun hread => ?_, readString_of_stringLiteral⟩
    rcases stringLiteral_of_readString (by rw [hread]; simp) with ⟨content, hliteral⟩ | hopen
    · have hcontent := (readString_of_stringLiteral hliteral).symm.trans hread
      rwa [StringReading.text.inj hcontent] at hliteral
    · exact absurd hopen hterminated
  · exact hliteral.not_unterminated ⟨quote, rest, last, he, hquote, hruns⟩
  · have hread := readString_of_unterminated hquote hruns
    rw [classify, he, classifyBare_of_readString (by rw [hread]; split <;> simp), hread]
    by_cases hsize : last.utf8Size = 1
    · rw [if_pos hsize, if_pos hsize]
    · rw [if_neg hsize, if_neg hsize]

/-- A complete literal in parentheses, with a quote taken along by a backslash, and an unterminated
one. -/
theorem classify_string_iff_quote :
    (¬ Unterminated (bareExpression "('it\\'s' as const)".toList) ∧
        classify "('it\\'s' as const)".toList = some (.string "it's")) ∧
      RunsOut '\'' ("don".toList ++ ['t']) ∧
      classify "'dont".toList = some (.string "don") := by
  have hbody : LiteralBody ['\'', '\n'] ['i', 't', '\\', '\'', 's'] :=
    .plain (by decide) (by decide) (.plain (by decide) (by decide) (.escape '\''
      (.plain (by decide) (by decide) .nil)))
  have hbare : bareExpression "('it\\'s' as const)".toList =
      '\'' :: (['i', 't', '\\', '\'', 's'] ++ ['\'']) := by decide +kernel
  have hliteral : StringLiteral (bareExpression "('it\\'s' as const)".toList) "it's".toList := by
    rw [hbare]
    exact .quoted (.inl rfl) hbody
  have hruns : RunsOut '\'' ("don".toList ++ ['t']) :=
    Offset.runsOut_of_quotedLength_eq (by decide) (by decide)
  obtain ⟨hclosed, -⟩ := classify_string_iff "('it\\'s' as const)".toList
  obtain ⟨-, hopen⟩ := classify_string_iff "'dont".toList
  have hterminated := hliteral.not_unterminated
  exact ⟨⟨hterminated, ((hclosed hterminated).2 _).2 hliteral⟩, hruns,
    (hopen '\'' "don".toList 't' (by decide +kernel) (.inl rfl) hruns).2⟩

/-- A literal without its closing quote is read as a string, or has no answer at all. -/
theorem classify_of_open_quote :
    classify "'info".toList = some (.string "inf") ∧
      (∀ content, ¬ StringLiteral (bareExpression "'info".toList) content) ∧
      classify "'é".toList = none := by
  have hbare : bareExpression "'info".toList = '\'' :: (['i', 'n', 'f'] ++ ['o']) := by
    decide +kernel
  have hruns : RunsOut '\'' (['i', 'n', 'f'] ++ ['o']) :=
    Offset.runsOut_of_quotedLength_eq (by decide) (by decide)
  have hterminated : Unterminated (bareExpression "'info".toList) :=
    ⟨'\'', ['i', 'n', 'f'], 'o', hbare, .inl rfl, hruns⟩
  exact ⟨by decide +kernel, fun _ hliteral => hliteral.not_unterminated hterminated,
    by decide +kernel⟩

end ComponentAudit.Script
