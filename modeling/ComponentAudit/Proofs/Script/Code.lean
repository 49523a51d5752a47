import ComponentAudit.Proofs.Offset.Bracket
import ComponentAudit.Proofs.Script.Bracket

/-!
# Well-formed code

Code is well formed when its brackets match and its strings, comments and template literals are
closed. `IsCode` says so by a grammar: code is a sequence of plain characters, closed tokens and
bracketed code, and a template literal may hold code in turn.

The search for a closing bracket has one stack for all of that. It leaves well-formed code with the
stack with which it entered (`IsCode.crosses`), which is proved along the grammar, together with the
same for the inside of template literals. So the bracket around well-formed code is closed behind
it, whatever follows.

On any other text, and on any string of bytes, what is found is at least a closer of the right kind
(`closePlace?_sound`).
-/

namespace ComponentAudit.Script

/-! ### The grammar -/

/-- The brackets that enclose code, each with its closer. -/
def bracketPairs : List (Char × Char) := [('\x7b', '\x7d'), ('(', ')'), ('[', ']')]

/-- A character of code that belongs to no token and is no bracket. -/
def isPlain (c : Char) : Bool :=
  c ∉ ['\'', '"', '`', '/', '\x7b', '\x7d', '(', ')', '[', ']']

mutual

/-- Well-formed code. -/
inductive IsCode : List Char → Prop
  | nil : IsCode []
  | plain {c : Char} {t : List Char} : isPlain c = true → IsCode t → IsCode (c :: t)
  | quoted {quote : Char} {body t : List Char} : quote = '\'' ∨ quote = '"' →
      LiteralBody [quote, '\n'] body → IsCode t → IsCode (quote :: (body ++ quote :: t))
  | blockComment {body t : List Char} : ¬ ['*', '/'] <:+: body → IsCode t →
      IsCode ('/' :: '*' :: (body ++ '*' :: '/' :: t))
  | lineComment {body t : List Char} : '\n' ∉ body → IsCode t →
      IsCode ('/' :: '/' :: (body ++ '\n' :: t))
  | template {body t : List Char} : IsTemplateBody body → IsCode t →
      IsCode ('`' :: (body ++ '`' :: t))
  | bracketed {opener closer : Char} {body t : List Char} : (opener, closer) ∈ bracketPairs →
      IsCode body → IsCode t → IsCode (opener :: (body ++ closer :: t))

/-- What stands between the backticks of a template literal. -/
inductive IsTemplateBody : List Char → Prop
  | nil : IsTemplateBody []
  | plain {c : Char} {t : List Char} : c ∉ ['`', '\\', '$'] → IsTemplateBody t →
      IsTemplateBody (c :: t)
  | escape (c : Char) {t : List Char} : IsTemplateBody t → IsTemplateBody ('\\' :: c :: t)
  | insertion {code t : List Char} : IsCode code → IsTemplateBody t →
      IsTemplateBody ('$' :: '\x7b' :: (code ++ '\x7d' :: t))

end

/-- Plain code is inert. -/
theorem isInert_of_isPlain {c : Char} (h : isPlain c = true) : isInert c = true := by
  simp only [isPlain, List.mem_cons, List.not_mem_nil, or_false, not_or, decide_eq_true_eq] at h
  have hopener : Context.ofOpener? c = none := by
    unfold Context.ofOpener?
    split <;> simp_all
  simp [isInert, isCloser, hopener, h]

/-- The opening brackets are those of the pairs. -/
theorem ofOpener?_of_mem_bracketPairs {opener closer : Char}
    (h : (opener, closer) ∈ bracketPairs) : Context.ofOpener? opener = some (.code closer) := by
  simp only [bracketPairs, List.mem_cons, Prod.mk.injEq, List.not_mem_nil, or_false] at h
  rcases h with ⟨rfl, rfl⟩ | ⟨rfl, rfl⟩ | ⟨rfl, rfl⟩ <;> rfl

/-! ### Comments -/

/-- A block comment ends at the first `*/`. -/
theorem blockCommentLength_append {body : List Char} (h : ¬ ['*', '/'] <:+: body)
    (rest : List Char) : blockCommentLength (body ++ '*' :: '/' :: rest) = body.length + 2 := by
  induction body with
  | nil => simp [Offset.blockCommentLength_cons]
  | cons c body ih =>
    have hbody : ¬ ['*', '/'] <:+: body := fun hpart =>
      h (hpart.trans (List.suffix_cons c body).isInfix)
    have hend : ¬ (c = '*' ∧ (body ++ '*' :: '/' :: rest).head? = some '/') := by
      rintro ⟨rfl, hhead⟩
      cases body with
      | nil => cases hhead
      | cons d body =>
        obtain rfl : d = '/' := by simpa using hhead
        exact h (List.prefix_append ['*', '/'] body).isInfix
    rw [List.cons_append, Offset.blockCommentLength_cons, if_neg hend, ih hbody, List.length_cons]

/-- A block comment is passed over as a whole. -/
theorem crosses_blockComment {body : List Char} (h : ¬ ['*', '/'] <:+: body) :
    Crosses ('/' :: '*' :: (body ++ ['*', '/'])) := by
  intro closer outer before rest
  refine closeWalk?_step ('*' :: (body ++ ['*', '/'])) ?_
  have hlength := blockCommentLength_append h rest
  simp [bracketStep, codeStep, commentLength?, hlength]

/-- A line comment ends before its line feed. -/
theorem commentLength?_line {body : List Char} (h : '\n' ∉ body) (rest : List Char) :
    commentLength? ('/' :: '/' :: (body ++ '\n' :: rest)) = some (body.length + 2) := by
  have hline : ∀ c ∈ body, decide (c ≠ '\n') = true :=
    fun c hc => decide_eq_true (ne_of_mem_of_not_mem hc h)
  rw [commentLength?, List.takeWhile_append_of_pos hline]
  simp

/-- So is a line comment with its line break. -/
theorem crosses_lineComment {body : List Char} (h : '\n' ∉ body) :
    Crosses ('/' :: '/' :: (body ++ ['\n'])) := by
  intro closer outer before rest
  have hlength := commentLength?_line h rest
  have hstep : closeWalk? (.code closer :: outer) before 0 ('/' :: ('/' :: body ++ '\n' :: rest)) =
      closeWalk? (.code closer :: outer) (('/' :: '/' :: body).reverse ++ before) 0
        ('\n' :: rest) :=
    closeWalk?_step _ (by simp [bracketStep, codeStep, hlength])
  -- The line feed is a character of the code behind the comment.
  have hfeed := crosses_char (c := '\n') (by decide) closer outer
    (('/' :: '/' :: body).reverse ++ before) rest
  simpa using hstep.trans hfeed

/-! ### Template literals -/

section

variable {outer : List Context} {before rest : List Char} {c : Char}

/-- A character of a template literal that ends nothing and opens nothing. -/
theorem closeWalk?_template_char (hescape : c ≠ '\\') (htick : c ≠ '`')
    (hopen : ¬ (c = '$' ∧ rest.head? = some '\x7b')) :
    closeWalk? (.template :: outer) before 0 (c :: rest) =
      closeWalk? (.template :: outer) (c :: before) 0 rest := by
  refine closeWalk?_step [] ?_
  simp [bracketStep, templateStep, hescape, htick, hopen]

/-- An escaped character of a template literal is passed over. -/
theorem closeWalk?_template_escape :
    closeWalk? (.template :: outer) before 0 ('\\' :: c :: rest) =
      closeWalk? (.template :: outer) (c :: '\\' :: before) 0 rest := by
  refine closeWalk?_step [c] ?_
  simp [bracketStep, templateStep]

end

/-- The search goes through the text inside a template literal and leaves open what was open. -/
def CrossesTemplate (t : List Char) : Prop :=
  ∀ (outer : List Context) (before rest : List Char),
    closeWalk? (.template :: outer) before 0 (t ++ rest) =
      closeWalk? (.template :: outer) (t.reverse ++ before) 0 rest

/-- An insertion with code that the walk gets through. -/
theorem Crosses.insertion {code : List Char} (h : Crosses code) :
    CrossesTemplate ('$' :: '\x7b' :: (code ++ ['\x7d'])) := by
  intro outer before rest
  have hopen : closeWalk? (.template :: outer) before 0
      ('$' :: (['\x7b'] ++ (code ++ '\x7d' :: rest))) =
      closeWalk? (.code '\x7d' :: .template :: outer) ('\x7b' :: '$' :: before) 0
        (code ++ '\x7d' :: rest) :=
    closeWalk?_step _ (by simp [bracketStep, templateStep])
  have hclose : ∀ before, closeWalk? (.code '\x7d' :: .template :: outer) before 0
      ('\x7d' :: ([] ++ rest)) = closeWalk? (.template :: outer) ('\x7d' :: before) 0 rest :=
    fun before => closeWalk?_step [] (bracketStep_closer rfl .template outer before rest)
  have hcode := h '\x7d' (.template :: outer) ('\x7b' :: '$' :: before) ('\x7d' :: rest)
  simpa using hopen.trans (hcode.trans (hclose _))

/-- The search goes through the text up to a backtick behind it. -/
def ReachesTick (t : List Char) : Prop :=
  ∀ (outer : List Context) (before rest : List Char),
    closeWalk? (.template :: outer) before 0 (t ++ '`' :: rest) =
      closeWalk? (.template :: outer) (t.reverse ++ before) 0 ('`' :: rest)

/-- In such a text the walk comes to the backtick behind it. -/
theorem CrossesTemplate.reachesTick {t : List Char} (h : CrossesTemplate t) : ReachesTick t :=
  fun outer before rest => h outer before ('`' :: rest)

/-- A template literal is passed over as a whole. -/
theorem crosses_template {body : List Char} (h : ReachesTick body) :
    Crosses ('`' :: (body ++ ['`'])) := by
  intro closer outer before rest
  have hopen : closeWalk? (.code closer :: outer) before 0 ('`' :: ([] ++ (body ++ '`' :: rest))) =
      closeWalk? (.template :: .code closer :: outer) ('`' :: before) 0 (body ++ '`' :: rest) :=
    closeWalk?_step _ (by simp [bracketStep, codeStep, commentLength?, regexLength?,
      Context.ofOpener?])
  have hclose : ∀ before, closeWalk? (.template :: .code closer :: outer) before 0
      ('`' :: ([] ++ rest)) = closeWalk? (.code closer :: outer) ('`' :: before) 0 rest :=
    fun before => closeWalk?_step _ (by simp [bracketStep, templateStep])
  have hbody := h (.code closer :: outer) ('`' :: before) rest
  simpa using hopen.trans (hbody.trans (hclose _))

/-- Two parts of a template literal. -/
theorem CrossesTemplate.append {a b : List Char} (ha : CrossesTemplate a)
    (hb : CrossesTemplate b) : CrossesTemplate (a ++ b) := by
  intro outer before rest
  rw [List.append_assoc, ha, hb, List.reverse_append, List.append_assoc]

/-- A template literal is closed at the backtick that the search reaches. -/
theorem closeLength?_template {body : List Char} (h : ReachesTick body) (rest : List Char) :
    closeLength? '`' (body ++ '`' :: rest) = some body.length := by
  change closeWalk? [.template] [] 0 (body ++ '`' :: rest) = some body.length
  rw [h, closeWalk?]
  simp [bracketStep, templateStep]

/-! ### The search on well-formed code -/

mutual

/-- Well-formed code leaves open what was open. -/
theorem IsCode.crosses {t : List Char} : IsCode t → Crosses t
  | .nil => .nil
  | .plain hc ht => .cons (isInert_of_isPlain hc) ht.crosses
  | .quoted hquote hbody ht => by simpa using (crosses_quoted hquote hbody).append ht.crosses
  | .blockComment hbody ht => by simpa using (crosses_blockComment hbody).append ht.crosses
  | .lineComment hbody ht => by simpa using (crosses_lineComment hbody).append ht.crosses
  | .template hbody ht => by
    simpa using (crosses_template hbody.crosses.reachesTick).append ht.crosses
  | .bracketed hpair hbody ht => by
    have hopener := ofOpener?_of_mem_bracketPairs hpair
    simpa using (hbody.crosses.bracketed hopener).append ht.crosses

/-- The inside of a template literal leaves open what was open. -/
theorem IsTemplateBody.crosses {t : List Char} : IsTemplateBody t → CrossesTemplate t
  | .nil => fun _ _ _ => rfl
  | .plain (c := c) hc ht => fun outer before rest => by
    simp only [List.mem_cons, List.not_mem_nil, or_false, not_or] at hc
    rw [List.cons_append, closeWalk?_template_char hc.2.1 hc.1 fun h => hc.2.2 h.1, ht.crosses]
    simp
  | .escape c ht => fun outer before rest => by
    rw [List.cons_append, List.cons_append, closeWalk?_template_escape, ht.crosses]
    simp
  | .insertion hcode ht => by simpa using hcode.crosses.insertion.append ht.crosses

end

/-! ### Places -/

/-- The place of the bracket or backtick that closes the one at `start`, looked for before `stop`.
A string of bytes is a text too: each byte is given as the character of its number. -/
def closePlace? (text : List Char) (start stop : Nat) : Option Nat :=
  text[start]?.bind fun c =>
    (closeLength? c ((text.take stop).drop (start + 1))).map (start + 1 + ·)

/-- The place of the closing bracket does not depend on what comes before the opening one. -/
theorem closePlace?_append {c : Char} {t : List Char} {k : Nat} (before : List Char)
    (h : closeLength? c t = some k) :
    closePlace? (before ++ c :: t) before.length (before ++ c :: t).length =
      some (before.length + 1 + k) := by
  have hregion :
      ((before ++ c :: t).take (before ++ c :: t).length).drop (before.length + 1) = t := by
    rw [List.take_length, List.append_cons, List.drop_left' (by simp)]
  rw [closePlace?, hregion]
  simp [h]

/-- Every opening bracket has its closing one. -/
theorem mem_bracketPairs_of_ofOpener? {c : Char} {ctx : Context}
    (h : Context.ofOpener? c = some ctx) : (c, ctx.closer) ∈ ('`', '`') :: bracketPairs := by
  unfold Context.ofOpener? at h
  split at h <;> cases h <;> decide

/-- The bracket or backtick that closes is behind the one that opens and of its kind. -/
theorem closePlace?_sound {text : List Char} {start stop place : Nat}
    (h : closePlace? text start stop = some place) :
    start < place ∧ place < stop ∧ ∃ opener closer, text[start]? = some opener ∧
      text[place]? = some closer ∧ (opener, closer) ∈ ('`', '`') :: bracketPairs := by
  obtain ⟨opener, hopener, hlength⟩ := Option.bind_eq_some_iff.1 h
  obtain ⟨k, hk, rfl⟩ := Option.map_eq_some_iff.1 hlength
  obtain ⟨ctx, hctx, hcloser⟩ := closeLength?_sound hk
  rw [List.getElem?_drop, List.getElem?_take] at hcloser
  split at hcloser
  · next hlt =>
    exact ⟨by omega, hlt, opener, ctx.closer, hopener, hcloser, mem_bracketPairs_of_ofOpener? hctx⟩
  · cases hcloser

/-- The search over the bytes of a text finds the closer that the search over its characters
finds. -/
theorem closeOffset?_eq_closePlace? {text : List Char} {start stop : Nat} (hstart : start < stop)
    (hstop : stop ≤ text.length) :
    Offset.closeOffset? text (Offset.offset text start) (Offset.offset text stop) =
      .ok ((closePlace? text start stop).map (Offset.offset text)) := by
  have hlt : start < text.length := Nat.lt_of_lt_of_le hstart hstop
  have hspan : Offset.Span text start stop ((text.take stop).drop start) := by
    have htake := (Offset.Span.whole text).take hstop
    have hdrop := htake.drop (k := start) (by simp; omega)
    rwa [Nat.zero_add, Nat.zero_add] at hdrop
  rw [List.drop_eq_getElem_cons (by simp; omega)] at hspan
  rw [Offset.closeOffset?_eq hspan, closePlace?, List.getElem?_eq_getElem hlt, Option.bind_some,
    Option.map_map, List.getElem_take]
  rfl

/-- **Brackets around well-formed code are matched.** A bracket that opens in front of well-formed
code is closed right behind it, and a backtick right behind the inside of its template literal,
whatever stands before and after. On any text, and so on any string of bytes, the place found lies
between the opening character and the end of the search, and there stands a closer of the same
kind. The run on byte offsets finds the same places. -/
theorem closePlace?_of_code :
    (∀ opener closer code before rest, (opener, closer) ∈ bracketPairs → IsCode code →
        let text := before ++ opener :: (code ++ closer :: rest)
        closePlace? text before.length text.length = some (before.length + 1 + code.length)) ∧
      (∀ body before rest, IsTemplateBody body →
        let text := before ++ '`' :: (body ++ '`' :: rest)
        closePlace? text before.length text.length = some (before.length + 1 + body.length)) ∧
      (∀ text start stop place, closePlace? text start stop = some place →
        start < place ∧ place < stop ∧ ∃ opener closer, text[start]? = some opener ∧
          text[place]? = some closer ∧ (opener, closer) ∈ ('`', '`') :: bracketPairs) ∧
      ∀ text start stop, start < stop → stop ≤ text.length →
        Offset.closeOffset? text (Offset.offset text start) (Offset.offset text stop) =
          .ok ((closePlace? text start stop).map (Offset.offset text)) := by
  refine ⟨fun opener closer code before rest hpair hcode => ?_,
    fun body before rest hbody => ?_, fun _ _ _ _ => closePlace?_sound,
    fun _ _ _ => closeOffset?_eq_closePlace?⟩
  · exact closePlace?_append before
      (closeLength?_of_crosses hcode.crosses (ofOpener?_of_mem_bracketPairs hpair) rest)
  · exact closePlace?_append before (closeLength?_template hbody.crosses.reachesTick rest)

/-- A brace in a string, and brackets in a template literal. -/
theorem closePlace?_of_code_nested :
    let code := ['\'', '\x7d', '\'', '`', '$', '\x7b', '[', ']', '\x7d', '`']
    IsCode code ∧ closePlace? ('(' :: '\x7b' :: (code ++ ['\x7d', ')'])) 1 14 = some 12 ∧
      closePlace? code 3 10 = some 9 ∧
      (closePlace? ['(', Char.ofNat 0xFF, ']', ')'] 0 4 = some 3 ∧ 0 < 3 ∧ 3 < 4) ∧
      Offset.closeOffset? ['(', 'é', ')'] 0 4 = .ok (some 3) := by
  intro code
  have hinside : IsTemplateBody ['$', '\x7b', '[', ']', '\x7d'] :=
    @IsTemplateBody.insertion ['[', ']'] [] (@IsCode.bracketed '[' ']' [] [] (by decide) .nil .nil)
      .nil
  have hstring : LiteralBody ['\'', '\n'] ['\x7d'] := .plain (by decide) (by decide) .nil
  have hcode : IsCode code :=
    @IsCode.quoted '\'' ['\x7d'] _ (.inl rfl) hstring (@IsCode.template _ [] hinside .nil)
  obtain ⟨hbracket, htemplate, hsound, hbytes⟩ := closePlace?_of_code
  have hfound : closePlace? ['(', Char.ofNat 0xFF, ']', ')'] 0 4 = some 3 := by decide +kernel
  obtain ⟨hafter, hbefore, -⟩ := hsound _ _ _ _ hfound
  exact ⟨hcode, hbracket '\x7b' '\x7d' code ['('] [')'] (by decide) hcode,
    htemplate _ ['\'', '\x7d', '\''] [] hinside, ⟨hfound, hafter, hbefore⟩,
    hbytes ['(', 'é', ')'] 0 3 (by decide) (by decide)⟩

end ComponentAudit.Script
