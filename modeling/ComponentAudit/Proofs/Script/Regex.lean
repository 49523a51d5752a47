import ComponentAudit.Proofs.Script.RegexLine

/-!
# Regular expressions as values

`IsRegex` describes the regular expression literals of one line: between the slashes a backslash
takes the next character along, and a slash inside a character class does not close. What stands
between them is what the search for the closing slash goes through, without line feeds
(`regexBody_iff`).

The search for a closing bracket knows them. Behind a colon it passes over the whole literal, so the
brace of an object literal is found behind all entries, whatever stands in their regular expressions
(`closeLength?_entries`). The splitting at commas does not know them and reads the literal as other
code: a quote in it begins a string, an opening bracket a bracketed text, two slashes a comment, and
a comma is a cut. So the pieces are the entries exactly if the splitting happens to read every
regular expression whole in front of what follows (`splitTopLevel_entries_iff`). It does so when
quotes and brackets in it are closed in it and it has no comma of its own outside of them
(`Harmless`).
-/

namespace ComponentAudit.Script

/-! ### The grammar -/

/-- What may stand between the slashes of a regular expression, read from a place where a character
class is open or not. -/
inductive RegexBody : (inClass : Bool) → List Char → Prop
  | nil : RegexBody false []
  | escape {k : Bool} {c : Char} {t : List Char} : c ≠ '\n' → RegexBody k t →
      RegexBody k ('\\' :: c :: t)
  | openClass {k : Bool} {t : List Char} : RegexBody true t → RegexBody k ('[' :: t)
  | closeClass {k : Bool} {t : List Char} : RegexBody false t → RegexBody k (']' :: t)
  | slash {t : List Char} : RegexBody true t → RegexBody true ('/' :: t)
  | plain {k : Bool} {c : Char} {t : List Char} : c ∉ ['\\', '[', ']', '/', '\n'] →
      RegexBody k t → RegexBody k (c :: t)

/-- A regular expression literal with its flags. Its first character makes neither a comment of it
nor the end of a tag. -/
inductive IsRegex : List Char → Prop
  | literal {c : Char} {body flags : List Char} : RegexBody false (c :: body) → c ≠ '*' → c ≠ '>' →
      (∀ f ∈ flags, isKeyChar f = true) → IsRegex ('/' :: c :: (body ++ '/' :: flags))

/-- A slash begins a comment together with another slash or a star only. -/
theorem commentLength?_slash {s : List Char} (h : ∀ c ∈ s.head?, c ≠ '/' ∧ c ≠ '*') :
    commentLength? ('/' :: s) = none := by
  cases s with
  | nil => rfl
  | cons c s =>
    obtain ⟨hslash, hstar⟩ := h c rfl
    unfold commentLength?
    split <;> simp_all

private theorem RegexBody.head_ne {c : Char} {t : List Char} (h : RegexBody false (c :: t)) :
    c ≠ '/' := by
  rintro rfl
  cases h with
  | plain hc _ => exact hc (by decide)

/-- The bodies on one line are the runs without a line feed that leave no character class open. -/
theorem regexBody_iff {k : Bool} {t : List Char} :
    RegexBody k t ↔ RegexRun k false t ∧ '\n' ∉ t := by
  constructor
  · intro h
    induction h with
    | nil => exact ⟨.nil, List.not_mem_nil⟩
    | escape hc _ ih => exact ⟨.escape ih.1, by simp [hc.symm, ih.2]⟩
    | openClass _ ih => exact ⟨.openClass ih.1, by simp [ih.2]⟩
    | closeClass _ ih => exact ⟨.closeClass ih.1, by simp [ih.2]⟩
    | slash _ ih => exact ⟨.slash ih.1, by simp [ih.2]⟩
    | plain hc _ ih =>
      refine ⟨.plain hc ih.1, ?_⟩
      simp only [List.mem_cons, List.not_mem_nil, or_false, not_or] at hc
      simp [ih.2, Ne.symm hc.2.2.2.2]
  · rintro ⟨h, hline⟩
    generalize hk : false = k' at h
    induction h with
    | nil => exact hk ▸ .nil
    | escape _ ih =>
      simp only [List.mem_cons, not_or] at hline
      exact .escape (Ne.symm hline.2.1) (ih hline.2.2 hk)
    | openClass _ ih => exact .openClass (ih (List.not_mem_of_not_mem_cons hline) hk)
    | closeClass _ ih => exact .closeClass (ih (List.not_mem_of_not_mem_cons hline) hk)
    | slash _ ih => exact .slash (ih (List.not_mem_of_not_mem_cons hline) hk)
    | plain hc _ ih => exact .plain hc (ih (List.not_mem_of_not_mem_cons hline) hk)

/-- The literals of one line are those without a line feed. -/
theorem regexLiteral_regexBody_iff {v : List Char} :
    RegexLiteral (RegexBody false) v ↔ RegexLiteral (RegexRun false false) v ∧ '\n' ∉ v := by
  constructor
  · rintro @⟨c, body, flags, hbody, hstar, hclose, hflags⟩
    obtain ⟨hrun, hline⟩ := regexBody_iff.1 hbody
    refine ⟨.mk hrun hstar hclose hflags, ?_⟩
    have hflags' := not_newline_of_isIdentChar hflags
    simp_all
  · rintro ⟨@⟨c, body, flags, hbody, hstar, hclose, hflags⟩, hline⟩
    refine .mk (regexBody_iff.2 ⟨hbody, fun hmem => hline ?_⟩) hstar hclose hflags
    exact List.mem_cons_of_mem _ (List.mem_append_left ('/' :: flags) hmem)

/-! ### Regular expressions as expressions -/

/-- An expression that begins with a slash says nothing. -/
theorem classifyBare_slash (s : List Char) : classifyBare ('/' :: s) = some .unresolved := by
  have hnumber : isNumber ('/' :: s) = false := by
    refine isNumber_of_head fun c hc => ?_
    obtain rfl : '/' = c := by simpa using hc
    decide
  have hstring : readString ('/' :: s) = .other := by
    rw [readString]
    simp
  have hpath : isMemberPath ('/' :: s) = false := by
    simp [isMemberPath, show isPathStart '/' = false by decide]
  rw [classifyBare]
  simp [hnumber, hstring, hpath]

section

variable {v : List Char}

/-- Nothing but the closing slash and the flags stands at the end of a regular expression. -/
theorem IsRegex.not_suffix (h : IsRegex v) {ending : List Char} {c : Char} (hc : c ∈ ending)
    (hkey : isKeyChar c = false) (hslash : '/' ∉ ending) : ¬ ending <:+ v := by
  obtain @⟨first, body, flags, hbody, -, -, hflags⟩ := h
  intro hsuffix
  have hend : '/' :: flags <:+ '/' :: first :: (body ++ '/' :: flags) :=
    List.suffix_append ('/' :: first :: body) ('/' :: flags)
  rcases List.suffix_or_suffix_of_suffix hsuffix hend with h | h
  · rcases List.mem_cons.1 (h.subset hc) with rfl | hmem
    · exact hslash hc
    · rw [hflags c hmem] at hkey
      cases hkey
  · exact hslash (h.subset List.mem_cons_self)

/-- A regular expression is an operand. -/
theorem IsRegex.isOperand (h : IsRegex v) : IsOperand v := by
  obtain @⟨first, body, flags, -, -, -, hflags⟩ := h
  refine ⟨List.cons_ne_nil _ _, fun c hc => ?_, fun c hc => ?_⟩
  · obtain rfl : '/' = c := by simpa using hc
    decide
  · rw [← List.cons_append, ← List.cons_append, List.getLast?_append,
      List.getLast?_eq_some_getLast (List.cons_ne_nil '/' flags), Option.some_or,
      Option.mem_some_iff] at hc
    have hmem : c ∈ '/' :: flags := hc ▸ List.getLast_mem _
    rcases List.mem_cons.1 hmem with rfl | hmem
    · decide
    · exact (isSolid_iff.1 (isSolid_of_isKeyChar (hflags c hmem))).2.2.2

/-- Nothing is known of a prop that is a regular expression. -/
theorem IsRegex.classify_eq (h : IsRegex v) : classify v = some .unresolved := by
  have hbare : bareExpression v = v := by
    refine bareExpression_eq_self (fun c hc => (h.isOperand.head c hc).1) h.isOperand.last ?_
      (h.not_suffix (c := ' ') (by decide) (by decide) (by decide))
      (h.not_suffix (c := '!') (by decide) (by decide) (by decide))
    cases h with
    | literal => simp
  rw [classify, hbare]
  cases h with
  | literal => exact classifyBare_slash _

end

/-! ### Regular expressions in the search for a bracket -/

private theorem IsRegex.regexLiteral {v : List Char} (h : IsRegex v) :
    RegexLiteral (RegexBody false) v := by
  obtain @⟨first, body, flags, hbody, hstar, htag, hflags⟩ := h
  exact .mk hbody hstar htag fun f hf => (Bool.and_eq_true_iff.1 (hflags f hf)).1

/-- Behind a colon, a regular expression is taken as a whole. -/
theorem IsRegex.regexLength?_append {v before rest : List Char} (h : IsRegex v)
    (hbefore : (skipSpace before).head? = some ':')
    (hrest : ∀ c ∈ rest.head?, isIdentChar c = false) :
    regexLength? before (v ++ rest) = some v.length := by
  have hliteral := (regexLiteral_regexBody_iff.1 h.regexLiteral).1
  have hstart : expressionMayStart before = true := by
    obtain ⟨s, hs⟩ := List.head?_eq_some_iff.1 hbefore
    simp [expressionMayStart, hs, show isIdentChar ':' = false by decide]
  exact hliteral.regexLength?_append (by rw [hbefore]; decide) hstart hrest

/-- Behind a colon, the search passes over a regular expression. -/
theorem IsRegex.closeWalk?_append {v before rest : List Char} (h : IsRegex v)
    (hbefore : (skipSpace before).head? = some ':')
    (hrest : ∀ c ∈ rest.head?, isIdentChar c = false) (closer : Char) (outer : List Context) :
    closeWalk? (.code closer :: outer) before 0 (v ++ rest) =
      closeWalk? (.code closer :: outer) (v.reverse ++ before) 0 rest := by
  have hlength := h.regexLength?_append hbefore hrest
  obtain @⟨first, body, flags, hbody, hstar, htag, hflags⟩ := h
  refine closeWalk?_step (first :: (body ++ '/' :: flags)) ?_
  have hcomment : ∀ s, commentLength? ('/' :: first :: s) = none := fun s =>
    commentLength?_slash fun c hc => by
      obtain rfl : first = c := by simpa using hc
      exact ⟨hbody.head_ne, hstar⟩
  simp only [List.cons_append] at hlength ⊢
  rw [bracketStep, codeStep, hcomment, hlength]
  · simp
  · simp

/-! ### Entries -/

/-- A value of an entry: a plain value, or a regular expression, of which nothing is known. -/
inductive EntryValue : List Char → PropValue → Prop
  | plain {v : List Char} {m : PropValue} : PlainValue v m → EntryValue v m
  | regex {v : List Char} : IsRegex v → EntryValue v .unresolved

section

variable {v : List Char} {m : PropValue}

/-- The value of an entry is plain or a regular expression. -/
theorem EntryValue.plain_or_regex (h : EntryValue v m) : PlainValue v m ∨ IsRegex v := by
  cases h with
  | plain h => exact .inl h
  | regex h => exact .inr h

/-- The value of an entry is an operand. -/
theorem EntryValue.isOperand (h : EntryValue v m) : IsOperand v := by
  cases h with
  | plain h => exact h.isOperand
  | regex h => exact h.isOperand

/-- It has the value it stands for. -/
theorem EntryValue.classify_eq (h : EntryValue v m) : classify v = some m := by
  cases h with
  | plain h => exact h.classify_eq
  | regex h => exact h.classify_eq

end

section

variable {closer : Char} {outer : List Context} {rest : List Char}

/-- The search goes through an entry: its regular expression stands behind the colon. -/
theorem closeWalk?_entry (e : Pair EntryValue) (before : List Char)
    (hrest : ∀ c ∈ rest.head?, isIdentChar c = false) :
    closeWalk? (.code closer :: outer) before 0 (e.print ++ rest) =
      closeWalk? (.code closer :: outer) (e.print.reverse ++ before) 0 rest := by
  have hafter : Crosses e.after.chars := crosses_of_isInert e.after.isInert_of_mem
  have hvalue : closeWalk? (.code closer :: outer) (e.lead.reverse ++ before) 0
      (e.value ++ (e.after.chars ++ rest)) = closeWalk? (.code closer :: outer)
        (e.value.reverse ++ (e.lead.reverse ++ before)) 0 (e.after.chars ++ rest) := by
    rcases e.isValue.plain_or_regex with h | h
    · exact h.crosses closer outer _ _
    · exact h.closeWalk?_append (e.head?_skipSpace_lead before)
        (e.after.forall_mem_head? (fun _ hc => (ne_of_isSpace hc).1) hrest) closer outer
  rw [Pair.print, List.append_assoc, e.crosses_lead, List.append_assoc, hvalue, hafter]
  simp

/-- The search goes through entries. -/
theorem closeWalk?_entries (es : List (Pair EntryValue)) (before : List Char)
    (hrest : ∀ c ∈ rest.head?, isIdentChar c = false) :
    closeWalk? (.code closer :: outer) before 0 ([','].intercalate (es.map Pair.print) ++ rest) =
      closeWalk? (.code closer :: outer)
        (([','].intercalate (es.map Pair.print)).reverse ++ before) 0 rest := by
  cases es with
  | nil => rfl
  | cons e es =>
    rw [List.map_cons, intercalate_cons]
    induction es generalizing e before with
    | nil => simpa [following] using closeWalk?_entry e before hrest
    | cons d es ih =>
      have hfollowing : following ',' ((d :: es).map Pair.print) =
          ',' :: (d.print ++ following ',' (es.map Pair.print)) := rfl
      have hhead : ∀ c ∈ (following ',' ((d :: es).map Pair.print) ++ rest).head?,
          isIdentChar c = false := forall_mem_head?_following (by decide) hrest _
      have hcomma : ∀ before rest, closeWalk? (.code closer :: outer) before 0 (',' :: rest) =
          closeWalk? (.code closer :: outer) (',' :: before) 0 rest :=
        crosses_char (by decide) closer outer
      rw [List.append_assoc, closeWalk?_entry e before hhead, hfollowing, List.cons_append, hcomma,
        ih]
      simp

end

/-- The brace of an object literal is closed behind its entries. -/
theorem closeLength?_entries (es : List (Pair EntryValue)) (rest : List Char) :
    closeLength? '\x7b' ([','].intercalate (es.map Pair.print) ++ '\x7d' :: rest) =
      some ([','].intercalate (es.map Pair.print)).length := by
  refine closeLength?_of_closeWalk? rfl (closeWalk?_entries es [] fun c hc => ?_)
  obtain rfl : '\x7d' = c := by simpa using hc
  decide

/-! ### Regular expressions in the splitting -/

/-- The splitting reads each regular expression whole in front of what follows. -/
def RegexesReadWhole (es : List (Pair EntryValue)) : Prop :=
  ∀ before e after, es = before ++ e :: after → IsRegex e.value →
    ReadsWhole ',' (following ',' (after.map Pair.print)) (e.value ++ e.after.chars)

/-- The regular expressions are read as one piece exactly when all entries are. -/
theorem regexesReadWhole_iff (es : List (Pair EntryValue)) : RegexesReadWhole es ↔
    ∀ before e after, es = before ++ e :: after →
      ReadsWhole ',' (following ',' (after.map Pair.print)) e.print := by
  refine ⟨fun h before e after hes => ?_, fun h before e after hes _ => ?_⟩
  · rw [e.readsWhole_print_iff]
    rcases e.isValue.plain_or_regex with hplain | hregex
    · exact (hplain.readsWhole _).append (e.after.readsWhole (by decide) _)
    · exact h before e after hes hregex
  · exact (e.readsWhole_print_iff _).1 (h before e after hes)

/-- The pieces are the entries exactly if the regular expressions are read whole. -/
theorem splitTopLevel_entries_iff {es : List (Pair EntryValue)} (hne : es ≠ []) :
    splitTopLevel ',' ([','].intercalate (es.map Pair.print)) = es.map Pair.print ↔
      RegexesReadWhole es := by
  rw [splitTopLevel_eq_iff (by decide) Pair.print hne, regexesReadWhole_iff]

/-- Code of which nothing is left open and in which no comma stands outside of strings and
brackets. A slash may stand in it where it begins no comment. -/
inductive Harmless : List Char → Prop
  | nil : Harmless []
  | plain {c : Char} {t : List Char} : c ∉ ['\'', '"', '`', '/', '\x7b', '(', '[', ','] →
      Harmless t → Harmless (c :: t)
  | slash {t : List Char} : t.head? ∉ [some '/', some '*'] → Harmless t → Harmless ('/' :: t)
  | quoted {quote : Char} {body t : List Char} : quote = '\'' ∨ quote = '"' →
      LiteralBody [quote, '\n'] body → Harmless t → Harmless (quote :: (body ++ quote :: t))
  | bracketed {opener closer : Char} {body t : List Char} : (opener, closer) ∈ bracketPairs →
      IsCode body → Harmless t → Harmless (opener :: (body ++ closer :: t))

/-- A regular expression without quotes and brackets is read as one piece, even though it is not
recognized. -/
theorem Harmless.readsWhole {t rest : List Char} (h : Harmless t)
    (hrest : ∀ c ∈ rest.head?, c ≠ '/' ∧ c ≠ '*') : ReadsWhole ',' rest t := by
  induction h with
  | nil => exact .nil
  | @plain c t hc _ ih =>
    simp only [List.mem_cons, List.not_mem_nil, or_false, not_or] at hc
    have hopener : Context.ofOpener? c = none := by
      unfold Context.ofOpener?
      split <;> simp_all
    exact .char (by simp [opensToken, commentLength?_eq_none, hopener, hc]) (by simp [hc]) ih
  | @slash t ht _ ih =>
    have hnext : ∀ c ∈ (t ++ rest).head?, c ≠ '/' ∧ c ≠ '*' := by
      cases t with
      | nil => exact hrest
      | cons d t => simpa using ht
    exact .char (by simp [opensToken, commentLength?_slash hnext, Context.ofOpener?]) (by decide) ih
  | quoted hquote hbody _ ih => simpa using (readsWhole_quoted hquote hbody).append ih
  | bracketed hpair hbody _ ih =>
    have hopener := ofOpener?_of_mem_bracketPairs hpair
    simpa using (readsWhole_bracketed hopener hbody.crosses).append ih

/-- A harmless regular expression is read whole in its entry. -/
theorem regexesReadWhole_of_harmless {es : List (Pair EntryValue)}
    (h : ∀ e ∈ es, IsRegex e.value → Harmless e.value) : RegexesReadWhole es := by
  intro before e after hes hregex
  have hmem : e ∈ es := hes ▸ List.mem_append_right before List.mem_cons_self
  have hfollowing : ∀ c ∈ (following ',' (after.map Pair.print) ++ []).head?, c ≠ '/' ∧ c ≠ '*' :=
    forall_mem_head?_following (by decide) (by simp) _
  rw [List.append_nil] at hfollowing
  have hvalue := (h e hmem hregex).readsWhole
    (e.after.forall_mem_head? (fun _ hc => (ne_of_isSpace hc).2) hfollowing)
  exact hvalue.append (e.after.readsWhole (by decide) _)

/-! ### Literals with regular expressions -/

/-- Entries whose regular expressions are read whole say what they say one by one. -/
theorem readObject?_entries {es : List (Pair EntryValue)} (h : RegexesReadWhole es) :
    readObject? ([','].intercalate (es.map Pair.print)) = some ⟨es.map Pair.prop, false⟩ :=
  readObject?_of_props ((regexesReadWhole_iff es).1 h)
    fun e _ => e.contribution?_print e.isValue.isOperand e.isValue.classify_eq

/-- **The splitting reads regular expressions as other code.** Each value alone is classified as it
is written, and the search for the closing brace passes over all regular expressions. The pieces of
the literal are its entries exactly if the splitting reads every regular expression whole in front
of what follows; then there is one prop for each entry, in their order, and no spread. Harmless
regular expressions are always read whole. -/
theorem readObject?_of_regexes (es : List (Pair EntryValue)) :
    let body := [','].intercalate (es.map Pair.print)
    (∀ e ∈ es, classify e.value = some e.meaning) ∧
      (∀ rest, closeLength? '\x7b' (body ++ '\x7d' :: rest) = some body.length) ∧
      (es ≠ [] → (splitTopLevel ',' body = es.map Pair.print ↔ RegexesReadWhole es)) ∧
      (RegexesReadWhole es → readObject? body = some ⟨es.map Pair.prop, false⟩) ∧
      ((∀ e ∈ es, IsRegex e.value → Harmless e.value) → RegexesReadWhole es) :=
  ⟨fun e _ => e.isValue.classify_eq, closeLength?_entries es, splitTopLevel_entries_iff,
    readObject?_entries, regexesReadWhole_of_harmless⟩

/-- A regular expression with a comma in a character class, in front of another entry. -/
theorem readObject?_of_regexes_class :
    let text := "p: /^[a-z,]+$/i, n: 'N'".toList
    IsRegex "/^[a-z,]+$/i".toList ∧ Harmless "/^[a-z,]+$/i".toList ∧
      closeLength? '\x7b' (text ++ ['\x7d']) = some text.length ∧
      splitTopLevel ',' text = ["p: /^[a-z,]+$/i".toList, " n: 'N'".toList] ∧
      readObject? text = some ⟨[("p", .unresolved), ("n", .string "N")], false⟩ := by
  intro text
  have hbody : RegexBody false "^[a-z,]+$".toList :=
    .plain (by decide) (.openClass (.plain (by decide) (.plain (by decide) (.plain (by decide)
      (.plain (by decide) (.closeClass (.plain (by decide) (.plain (by decide) .nil))))))))
  have hregex : IsRegex "/^[a-z,]+$/i".toList :=
    @IsRegex.literal '^' "[a-z,]+$".toList ['i'] hbody (by decide) (by decide)
      (List.all_eq_true.1 rfl)
  have hclass : IsCode "a-z,".toList :=
    .plain (by decide) (.plain (by decide) (.plain (by decide) (.plain (by decide) .nil)))
  have hharmless : Harmless "/^[a-z,]+$/i".toList :=
    .slash (by decide) (.plain (by decide) (.bracketed (by decide) hclass (.plain (by decide)
      (.plain (by decide) (.slash (by decide) (.plain (by decide) .nil))))))
  let gap : Gap := ⟨[' '], List.all_eq_true.1 rfl⟩
  let tight : Gap := ⟨[], List.all_eq_true.1 rfl⟩
  let pattern : Pair EntryValue := ⟨tight, .word (.ofAll 'p' [] (by decide)), tight, gap, _, _,
    .regex hregex, tight⟩
  let label : Pair EntryValue := ⟨gap, .word (.ofAll 'n' [] (by decide)), tight, gap, _, _,
    .plain (@PlainValue.quoted '\'' ['N'] (.inl rfl) (.of_forall (by simp))), tight⟩
  have htext : [','].intercalate ([pattern, label].map Pair.print) = text := rfl
  obtain ⟨-, hclose, hsplit, hread, hwhole⟩ := readObject?_of_regexes [pattern, label]
  rw [htext] at hclose hread hsplit
  have hstring : Harmless "'N'".toList :=
    @Harmless.quoted '\'' ['N'] [] (.inl rfl) (.of_forall (by simp)) .nil
  have hregexes : RegexesReadWhole [pattern, label] :=
    hwhole (List.forall_mem_cons.2 ⟨fun _ => hharmless,
      List.forall_mem_singleton.2 fun _ => hstring⟩)
  have hpieces := (hsplit (List.cons_ne_nil _ _)).2 hregexes
  exact ⟨hregex, hharmless, hclose [], hpieces, hread hregexes⟩

/-- A quote in a regular expression takes the next entry along. -/
theorem readObject?_of_regex_quote :
    let body := "pattern: /'/, label: 'Name'".toList
    IsRegex "/'/".toList ∧ closeLength? '\x7b' (body ++ ['\x7d']) = some body.length ∧
      readObject? body = some ⟨[("pattern", .unresolved)], false⟩ ∧
      readObject? " label: 'Name'".toList = some ⟨[("label", .string "Name")], false⟩ := by
  have hregex : IsRegex "/'/".toList :=
    @IsRegex.literal '\'' [] [] (.plain (by decide) .nil) (by decide) (by decide) (by simp)
  exact ⟨hregex, by decide +kernel, by decide +kernel, by decide +kernel⟩

end ComponentAudit.Script
