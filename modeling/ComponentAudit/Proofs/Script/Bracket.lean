import ComponentAudit.Script.Bracket

/-!
# Texts that leave brackets alone

The search for a closing bracket passes over some texts without any effect on what is open: it
*crosses* them. Characters without a meaning of their own are crossed, and so are closed strings
(`LiteralBody` says what may stand in them) and bracketed texts whose inside is crossed. Texts that
are crossed may be put one after another (`Crosses.append`), so a text is crossed when its parts
are.

A bracket is closed behind a text that is crossed (`closeLength?_of_crosses`). On any other text
the search may well give up, or take a closer that does not match. But the bottom of its stack is
the bracket in question from the first step to the last (`getLast?_of_bracketStep`), so what it
finds is always a closer of that kind (`closeLength?_sound`).
-/

namespace ComponentAudit.Script

/-- The search for a closing bracket goes through the text and leaves open what was open. -/
def Crosses (t : List Char) : Prop :=
  ∀ (closer : Char) (outer : List Context) (before rest : List Char),
    closeWalk? (.code closer :: outer) before 0 (t ++ rest) =
      closeWalk? (.code closer :: outer) (t.reverse ++ before) 0 rest

/-- A character that neither opens nor closes anything, and starts no string or comment. -/
def isInert (c : Char) : Bool :=
  c ≠ '/' && c ≠ '\'' && c ≠ '"' && (Context.ofOpener? c).isNone && !isCloser c

/-- Characters to be passed over are passed over. -/
theorem closeWalk?_skip (contexts : List Context) (skipped rest : List Char) :
    ∀ before : List Char, closeWalk? contexts before skipped.length (skipped ++ rest) =
      closeWalk? contexts (skipped.reverse ++ before) 0 rest := by
  induction skipped with
  | nil => intro before; rfl
  | cons c skipped ih =>
    intro before
    rw [List.length_cons, List.cons_append, closeWalk?, ih, List.reverse_cons, List.append_assoc,
      List.singleton_append]

/-- A step that passes over the rest of a token. -/
theorem closeWalk?_step {contexts contexts' : List Context} {before : List Char} {c : Char}
    (passed : List Char) {rest : List Char}
    (h : bracketStep contexts before c (passed ++ rest) = .next passed.length contexts') :
    closeWalk? contexts before 0 (c :: (passed ++ rest)) =
      closeWalk? contexts' ((c :: passed).reverse ++ before) 0 rest := by
  rw [closeWalk?, h]
  simp only [closeWalk?_skip, List.reverse_cons, List.append_assoc, List.singleton_append]

/-- Only a slash begins a comment. -/
theorem commentLength?_eq_none {c : Char} (h : c ≠ '/') (rest : List Char) :
    commentLength? (c :: rest) = none := by
  unfold commentLength?
  split <;> simp_all

/-- Only a slash begins a regular expression. -/
theorem regexLength?_eq_none {c : Char} (h : c ≠ '/') (before rest : List Char) :
    regexLength? before (c :: rest) = none := by
  unfold regexLength?
  split <;> simp_all

private theorem isCloser_of_ofOpener? {opener closer : Char}
    (h : Context.ofOpener? opener = some (.code closer)) : isCloser closer = true := by
  unfold Context.ofOpener? at h
  split at h <;> cases h <;> decide

private theorem ne_of_isCloser {c : Char} (h : isCloser c = true) :
    c ≠ '/' ∧ c ≠ '\'' ∧ c ≠ '"' ∧ Context.ofOpener? c = none := by
  simp only [isCloser, Bool.or_eq_true, decide_eq_true_eq] at h
  rcases h with (rfl | rfl) | rfl <;> decide

/-- An opening bracket is no slash and no quote. -/
theorem ne_of_ofOpener? {c : Char} {ctx : Context} (h : Context.ofOpener? c = some ctx) :
    c ≠ '/' ∧ c ≠ '\'' ∧ c ≠ '"' := by
  refine ⟨?_, ?_, ?_⟩ <;> rintro rfl <;> cases h

/-- The step at the bracket that closes the innermost context. -/
theorem codeStep_closer {closer : Char} (h : isCloser closer = true) (outer : List Context)
    (before rest : List Char) :
    codeStep (.code closer :: outer) before closer rest =
      match outer with
      | [] => .found
      | _ => .next 0 outer := by
  obtain ⟨hslash, hquote, hdouble, hopener⟩ := ne_of_isCloser h
  rw [codeStep, commentLength?_eq_none hslash, regexLength?_eq_none hslash]
  cases outer <;> simp [hquote, hdouble, hopener, h, closeContext?]

/-- The bracket that closes the innermost context leaves the others open. -/
theorem bracketStep_closer {closer : Char} (h : isCloser closer = true) (ctx : Context)
    (outer : List Context) (before rest : List Char) :
    bracketStep (.code closer :: ctx :: outer) before closer rest = .next 0 (ctx :: outer) :=
  codeStep_closer h (ctx :: outer) before rest

/-! ### Where quoted literals end -/

/-- A text with none of the characters that end a literal, unless a backslash takes it along. Every
backslash takes a character along. -/
inductive LiteralBody (ends : List Char) : List Char → Prop
  | nil : LiteralBody ends []
  | escape (c : Char) {s : List Char} : LiteralBody ends s → LiteralBody ends ('\\' :: c :: s)
  | plain {c : Char} {s : List Char} : c ≠ '\\' → c ∉ ends → LiteralBody ends s →
      LiteralBody ends (c :: s)

/-- A text without backslashes and without characters that end the literal. -/
theorem LiteralBody.of_forall {ends s : List Char} (h : ∀ c ∈ s, c ≠ '\\' ∧ c ∉ ends) :
    LiteralBody ends s := by
  induction s with
  | nil => exact .nil
  | cons c s ih =>
    obtain ⟨⟨hescape, hends⟩, hs⟩ := List.forall_mem_cons.1 h
    exact .plain hescape hends (ih hs)

/-- A string literal is read character by character up to its quote or the end of the line. -/
theorem quotedLength_cons {quote c : Char} (hc : c ≠ '\\') (s : List Char) :
    quotedLength quote (c :: s) =
      if c = '\n' then 0 else if c = quote then 1 else quotedLength quote s + 1 := by
  rw [quotedLength]
  · exact fun h => absurd h hc
  · exact fun _ _ h => absurd h hc

theorem ne_of_isQuote {quote : Char} (h : quote = '\'' ∨ quote = '"') :
    quote ≠ '\\' ∧ quote ≠ '\n' := by
  rcases h with rfl | rfl <;> decide

/-- A literal ends at the first quote that no backslash takes along. -/
theorem LiteralBody.quotedLength_append {quote : Char} {body : List Char}
    (hquote : quote = '\'' ∨ quote = '"') (h : LiteralBody [quote, '\n'] body) (rest : List Char) :
    quotedLength quote (body ++ quote :: rest) = body.length + 1 := by
  induction h with
  | nil =>
    obtain ⟨hescape, hline⟩ := ne_of_isQuote hquote
    rw [List.nil_append, quotedLength_cons hescape, if_neg hline, if_pos rfl]
    rfl
  | escape c _ ih => simp [quotedLength, ih]
  | plain hescape hends _ ih =>
    simp only [List.mem_cons, List.not_mem_nil, or_false, not_or] at hends
    rw [List.cons_append, quotedLength_cons hescape, if_neg hends.2, if_neg hends.1, ih,
      List.length_cons]

/-! ### What is crossed -/

theorem Crosses.nil : Crosses [] := fun _ _ _ _ => rfl

/-- The walk gets through two texts one after the other. -/
theorem Crosses.append {a b : List Char} (ha : Crosses a) (hb : Crosses b) : Crosses (a ++ b) := by
  intro closer outer before rest
  rw [List.append_assoc, ha, hb, List.reverse_append, List.append_assoc]

/-- A character that begins no token is passed over. -/
theorem crosses_char {c : Char} (h : isInert c = true) : Crosses [c] := by
  intro closer outer before rest
  simp only [isInert, Bool.and_eq_true, decide_eq_true_eq, Bool.not_eq_true',
    Option.isNone_iff_eq_none] at h
  obtain ⟨⟨⟨⟨hslash, hquote⟩, hdouble⟩, hopener⟩, hcloser⟩ := h
  have hstep : bracketStep (.code closer :: outer) before c rest =
      .next 0 (.code closer :: outer) := by
    rw [bracketStep, codeStep, commentLength?_eq_none hslash, regexLength?_eq_none hslash]
    · simp [hquote, hdouble, hopener, hcloser]
    · simp
  rw [List.singleton_append, closeWalk?, hstep]
  rfl

theorem Crosses.cons {c : Char} {t : List Char} (hc : isInert c = true) (ht : Crosses t) :
    Crosses (c :: t) :=
  (crosses_char hc).append ht

/-- Inert characters are passed over. -/
theorem crosses_of_isInert {t : List Char} (h : ∀ c ∈ t, isInert c = true) : Crosses t := by
  induction t with
  | nil => exact .nil
  | cons c t ih =>
    exact .cons (h c List.mem_cons_self) (ih fun d hd => h d (List.mem_cons_of_mem c hd))

/-- The walk gets through any number of texts. -/
theorem crosses_flatten {ts : List (List Char)} (h : ∀ t ∈ ts, Crosses t) : Crosses ts.flatten := by
  induction ts with
  | nil => exact .nil
  | cons t ts ih =>
    exact .append (h t List.mem_cons_self) (ih fun u hu => h u (List.mem_cons_of_mem t hu))

/-- A closed string is crossed, whatever stands in it. -/
theorem crosses_quoted {quote : Char} {body : List Char} (hquote : quote = '\'' ∨ quote = '"')
    (h : LiteralBody [quote, '\n'] body) : Crosses (quote :: (body ++ [quote])) := by
  intro closer outer before rest
  have hor : (decide (quote = '\'') || decide (quote = '"')) = true := by simpa using hquote
  have hslash : quote ≠ '/' := by rcases hquote with rfl | rfl <;> decide
  have hlength := h.quotedLength_append hquote rest
  refine closeWalk?_step (body ++ [quote]) ?_
  rw [bracketStep, codeStep, commentLength?_eq_none hslash, regexLength?_eq_none hslash]
  · simp [hor, hlength]
  · simp

/-- A bracketed text is crossed when its inside is. -/
theorem Crosses.bracketed {opener closer : Char} {t : List Char} (ht : Crosses t)
    (h : Context.ofOpener? opener = some (.code closer)) :
    Crosses (opener :: (t ++ [closer])) := by
  intro closer' outer before rest
  obtain ⟨hslash, hquote, hdouble⟩ := ne_of_ofOpener? h
  have hopen : bracketStep (.code closer' :: outer) before opener ([] ++ (t ++ closer :: rest)) =
      .next 0 (.code closer :: .code closer' :: outer) := by
    rw [bracketStep, codeStep, commentLength?_eq_none hslash, regexLength?_eq_none hslash]
    · simp [hquote, hdouble, h]
    · simp
  have hclose : ∀ before, closeWalk? (.code closer :: .code closer' :: outer) before 0
      (closer :: ([] ++ rest)) = closeWalk? (.code closer' :: outer) (closer :: before) 0 rest :=
    fun before => closeWalk?_step [] (bracketStep_closer (isCloser_of_ofOpener? h) _ outer before
      rest)
  -- The inside is crossed whatever lies below its own closer.
  have hbody := ht closer (.code closer' :: outer) (opener :: before) (closer :: rest)
  simpa using (closeWalk?_step [] hopen).trans (hbody.trans (hclose _))

/-- A bracket is closed behind a text that the search goes through. -/
theorem closeLength?_of_closeWalk? {opener closer : Char} {t rest : List Char}
    (h : Context.ofOpener? opener = some (.code closer))
    (ht : closeWalk? [.code closer] [] 0 (t ++ closer :: rest) =
      closeWalk? [.code closer] (t.reverse ++ []) 0 (closer :: rest)) :
    closeLength? opener (t ++ closer :: rest) = some t.length := by
  have hfound : bracketStep [.code closer] t.reverse closer rest = .found := by
    rw [bracketStep, codeStep_closer (isCloser_of_ofOpener? h)]
    simp
  rw [closeLength?, h]
  simp only [ht, List.append_nil, closeWalk?, hfound, List.length_reverse]

/-- A bracket is closed behind a text that is crossed. -/
theorem closeLength?_of_crosses {opener closer : Char} {t : List Char} (ht : Crosses t)
    (h : Context.ofOpener? opener = some (.code closer)) (rest : List Char) :
    closeLength? opener (t ++ closer :: rest) = some t.length :=
  closeLength?_of_closeWalk? h (ht closer [] [] (closer :: rest))

/-- The whole text is enclosed when its closer is the last character. -/
theorem enclosed?_eq_some_iff {opener : Char} {e inner : List Char} :
    enclosed? opener e = some inner ↔ ∃ last, e = opener :: (inner ++ [last]) ∧
      closeLength? opener (inner ++ [last]) = some inner.length := by
  constructor
  · intro h
    cases e with
    | nil => cases h
    | cons c s =>
      rw [enclosed?] at h
      split at h
      · next hcond =>
        simp only [Bool.and_eq_true, decide_eq_true_eq, Bool.not_eq_true',
          List.isEmpty_eq_false_iff] at hcond
        obtain ⟨⟨rfl, hclose⟩, hne⟩ := hcond
        cases h
        refine ⟨s.getLast hne, by rw [List.dropLast_concat_getLast], ?_⟩
        rw [List.dropLast_concat_getLast, hclose, List.length_dropLast]
      · cases h
  · rintro ⟨last, rfl, hclose⟩
    simp [enclosed?, hclose]

/-! ### What the search finds on any text -/

/-- The character that closes a context. -/
def Context.closer : Context → Char
  | .code closer => closer
  | .template => '`'

/-- A closing bracket closes the nearest context that it matches and leaves those around it. -/
theorem closeContext?_eq_some {closer : Char} {contexts outer : List Context}
    (h : closeContext? closer contexts = some outer) :
    ∃ inner, contexts = inner ++ .code closer :: outer := by
  induction contexts with
  | nil => cases h
  | cons ctx contexts ih =>
    rw [closeContext?] at h
    split at h
    · next hctx =>
      cases h
      exact ⟨[], by rw [hctx]; rfl⟩
    · obtain ⟨inner, rfl⟩ := ih h
      exact ⟨ctx :: inner, rfl⟩

section

variable {contexts : List Context} {before s : List Char} {c : Char} {bottom : Context}

/-- What a step can do: open a context, leave the contexts alone or close some of them, and end the
search where it closes the outermost one. -/
inductive StepSpec (contexts : List Context) (c : Char) : Step → Prop
  | opens {skip : Nat} (ctx : Context) : StepSpec contexts c (.next skip (ctx :: contexts))
  | stays {skip : Nat} : StepSpec contexts c (.next skip contexts)
  | closes {skip : Nat} (inner : List Context) {ctx : Context} {outer : List Context} :
      contexts = inner ++ ctx :: outer → outer ≠ [] → StepSpec contexts c (.next skip outer)
  | ends (inner : List Context) (ctx : Context) : contexts = inner ++ [ctx] → c = ctx.closer →
      StepSpec contexts c .found

private theorem stepSpec_template (outer : List Context) (c : Char) (s : List Char) :
    StepSpec (.template :: outer) c (templateStep outer c s) := by
  unfold templateStep
  split
  · exact .stays
  · split
    · next htick =>
      cases outer with
      | nil => exact .ends [] .template rfl htick
      | cons ctx outer => exact .closes [] rfl (List.cons_ne_nil ctx outer)
    · split
      · exact .opens _
      · exact .stays

private theorem stepSpec_code (contexts : List Context) (before : List Char) (c : Char)
    (s : List Char) :
    StepSpec contexts c (codeStep contexts before c s) := by
  unfold codeStep
  split
  · exact .stays
  · split
    · exact .stays
    · split
      · exact .stays
      · split
        · exact .opens _
        · split
          · split
            · next hclose =>
              obtain ⟨inner, hinner⟩ := closeContext?_eq_some hclose
              exact .ends inner _ hinner rfl
            · next outer hne hclose =>
              obtain ⟨inner, hinner⟩ := closeContext?_eq_some hclose
              exact .closes inner hinner fun h => hne (h ▸ rfl)
            · exact .stays
          · exact .stays

/-- What a step of the walk can do, whatever contexts are open. -/
theorem stepSpec_bracketStep (contexts : List Context) (before : List Char) (c : Char)
    (s : List Char) : StepSpec contexts c (bracketStep contexts before c s) := by
  unfold bracketStep
  split
  · exact stepSpec_template _ c s
  · exact stepSpec_code contexts before c s

/-- A step that goes on keeps the outermost context. -/
theorem getLast?_of_bracketStep {skip : Nat} {contexts' : List Context}
    (h : bracketStep contexts before c s = .next skip contexts')
    (hbottom : contexts.getLast? = some bottom) : contexts'.getLast? = some bottom := by
  have hspec := stepSpec_bracketStep contexts before c s
  rw [h] at hspec
  cases hspec with
  | opens ctx => rw [List.getLast?_cons, hbottom]; rfl
  | stays => exact hbottom
  | closes inner heq hne =>
    have hlast := List.getLast?_eq_some_getLast hne
    rw [heq, List.append_cons, List.getLast?_append, hlast] at hbottom
    rw [hlast]
    exact hbottom

/-- A step that ends the search stands at the closer of the outermost context. -/
theorem eq_closer_of_bracketStep (h : bracketStep contexts before c s = .found)
    (hbottom : contexts.getLast? = some bottom) : c = bottom.closer := by
  have hspec := stepSpec_bracketStep contexts before c s
  rw [h] at hspec
  cases hspec with
  | ends inner ctx heq hc =>
    rw [heq, List.getLast?_concat, Option.some.injEq] at hbottom
    rw [hc, hbottom]

/-- The character found closes the outermost context. -/
theorem closeWalk?_sound {skip k : Nat} (hbottom : contexts.getLast? = some bottom)
    (h : closeWalk? contexts before skip s = some k) :
    ∃ n, k = before.length + n ∧ s[n]? = some bottom.closer := by
  induction s generalizing contexts before skip with
  | nil => cases skip <;> cases h
  | cons c s ih =>
    have hrest : ∀ {contexts skip}, contexts.getLast? = some bottom →
        closeWalk? contexts (c :: before) skip s = some k →
        ∃ n, k = before.length + n ∧ (c :: s)[n]? = some bottom.closer := by
      intro contexts skip hbottom h
      obtain ⟨n, hk, hn⟩ := ih hbottom h
      exact ⟨n + 1, by rw [hk, List.length_cons]; omega, hn⟩
    cases skip with
    | succ skip => exact hrest hbottom h
    | zero =>
      rw [closeWalk?] at h
      split at h
      · next hfound =>
        cases h
        exact ⟨0, rfl, congrArg some (eq_closer_of_bracketStep hfound hbottom)⟩
      · next hnext => exact hrest (getLast?_of_bracketStep hnext hbottom) h

end

/-- A bracket or backtick is closed by its own closer. -/
theorem closeLength?_sound {opener : Char} {s : List Char} {k : Nat}
    (h : closeLength? opener s = some k) :
    ∃ ctx, Context.ofOpener? opener = some ctx ∧ s[k]? = some ctx.closer := by
  rw [closeLength?] at h
  split at h
  · next ctx hctx =>
    have hbottom : [ctx].getLast? = some ctx := rfl
    obtain ⟨n, rfl, hn⟩ := closeWalk?_sound hbottom h
    rw [List.length_nil, Nat.zero_add]
    exact ⟨ctx, hctx, hn⟩
  · cases h

end ComponentAudit.Script
