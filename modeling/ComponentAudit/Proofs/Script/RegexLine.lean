import ComponentAudit.Proofs.Script.Entry

/-!
# Regular expressions and lines

The search for the closing slash of a regular expression stops at the end of the line, so that a
division takes no more than its line along. It looks for that end at the places it comes to, and
behind a backslash it does not come to the next character.

`RegexRun` describes what the search goes through. Where the search ends is read off it: at a slash
outside of a character class the literal is closed (`RegexRun.regexBodyLength?_slash`, with the
converse `exists_regexRun`), at a line feed there is none (`RegexRun.regexBodyLength?_newline`). So
the literals are known exactly (`regexLength?_eq_some_iff`), and every line feed in one of them
stands behind a backslash (`RegexLiteral.escapesNewlines`).
-/

namespace ComponentAudit.Script

/-! ### The grammar -/

/-- What the search for the closing slash goes through, from a place where a character class is open
or not up to such a place. The character behind a backslash may be any, also a line feed. -/
inductive RegexRun : (inClass thenInClass : Bool) → List Char → Prop
  | nil {k : Bool} : RegexRun k k []
  | escape {k k' : Bool} {c : Char} {t : List Char} : RegexRun k k' t →
      RegexRun k k' ('\\' :: c :: t)
  | openClass {k k' : Bool} {t : List Char} : RegexRun true k' t → RegexRun k k' ('[' :: t)
  | closeClass {k k' : Bool} {t : List Char} : RegexRun false k' t → RegexRun k k' (']' :: t)
  | slash {k' : Bool} {t : List Char} : RegexRun true k' t → RegexRun true k' ('/' :: t)
  | plain {k k' : Bool} {c : Char} {t : List Char} : c ∉ ['\\', '[', ']', '/', '\n'] →
      RegexRun k k' t → RegexRun k k' (c :: t)

/-- A regular expression literal with a body of the given form and its flags. Its first character
makes neither a comment of it nor the end of a tag. -/
inductive RegexLiteral (Body : List Char → Prop) : List Char → Prop
  | mk {c : Char} {body flags : List Char} : Body (c :: body) → c ≠ '*' → c ≠ '>' →
      (∀ f ∈ flags, isIdentChar f = true) → RegexLiteral Body ('/' :: c :: (body ++ '/' :: flags))

section

variable {k k' : Bool} {c : Char} {s t body rest : List Char} {n : Nat}

/-! ### Line feeds -/

/-- Every line feed in the text stands right behind a backslash. -/
def EscapesNewlines (t : List Char) : Prop := ∀ a b, t = a ++ '\n' :: b → ['\\'] <:+ a

namespace EscapesNewlines

private theorem of_not_mem (h : '\n' ∉ t) : EscapesNewlines t := by
  rintro a b rfl
  exact absurd (List.mem_append_right a List.mem_cons_self) h

theorem append (hs : EscapesNewlines s) (ht : EscapesNewlines t) : EscapesNewlines (s ++ t) := by
  intro a b hab
  rcases List.append_eq_append_iff.1 hab with ⟨d, rfl, hd⟩ | ⟨d, rfl, hd⟩
  · exact (ht d b hd).trans (List.suffix_append s d)
  · cases d with
    | nil => exact absurd (ht [] b hd.symm) (by simp)
    | cons x d =>
      obtain ⟨rfl, -⟩ := List.cons.inj hd
      exact hs a d rfl

theorem cons (hc : c ≠ '\n') (ht : EscapesNewlines t) : EscapesNewlines (c :: t) :=
  append (s := [c]) (.of_not_mem (by simpa using hc.symm)) ht

theorem escape (ht : EscapesNewlines t) : EscapesNewlines ('\\' :: c :: t) := by
  have hpair : EscapesNewlines ['\\', c] := by
    intro a b hab
    match a, hab with
    | [], hab => simp at hab
    | [x], hab => exact (List.cons.inj hab).1 ▸ List.suffix_rfl
    | x :: y :: a, hab => simp at hab
  exact hpair.append ht

end EscapesNewlines

/-- The search passes over a line feed only behind a backslash. -/
theorem RegexRun.escapesNewlines (h : RegexRun k k' t) : EscapesNewlines t := by
  induction h with
  | nil => exact .of_not_mem List.not_mem_nil
  | escape _ ih => exact ih.escape
  | openClass _ ih => exact ih.cons (by decide)
  | closeClass _ ih => exact ih.cons (by decide)
  | slash _ ih => exact ih.cons (by decide)
  | plain hc _ ih =>
    simp only [List.mem_cons, List.not_mem_nil, or_false, not_or] at hc
    exact ih.cons hc.2.2.2.2

/-! ### The search -/

/-- A character that begins no escape. -/
theorem regexBodyLength?_cons {c : Char} (hc : c ≠ '\\') (k : Bool) (s : List Char) :
    regexBodyLength? k (c :: s) =
      if c = '\n' then none
      else if c = '[' then (regexBodyLength? true s).map (· + 1)
      else if c = ']' then (regexBodyLength? false s).map (· + 1)
      else if c = '/' && !k then some 1
      else (regexBodyLength? k s).map (· + 1) := by
  rw [regexBodyLength?]
  · exact fun h => absurd h hc
  · exact fun _ _ h => absurd h hc

/-- The search goes on behind a run in the state that the run leaves. -/
theorem RegexRun.regexBodyLength?_append (h : RegexRun k k' body) (rest : List Char) :
    regexBodyLength? k (body ++ rest) = (regexBodyLength? k' rest).map (body.length + ·) := by
  induction h with
  | nil => simp
  | escape _ ih => simp [regexBodyLength?, ih, Function.comp_def, Nat.add_right_comm]
  | openClass _ ih => simp [regexBodyLength?_cons, ih, Function.comp_def, Nat.add_right_comm]
  | closeClass _ ih => simp [regexBodyLength?_cons, ih, Function.comp_def, Nat.add_right_comm]
  | slash _ ih => simp [regexBodyLength?_cons, ih, Function.comp_def, Nat.add_right_comm]
  | plain hc _ ih =>
    simp only [List.mem_cons, List.not_mem_nil, or_false, not_or] at hc
    simp [regexBodyLength?_cons, hc, ih, Function.comp_def, Nat.add_right_comm]

/-- The search that ends has come to a slash behind a run. -/
theorem exists_regexRun (h : regexBodyLength? k s = some n) :
    ∃ body rest, s = body ++ '/' :: rest ∧ n = body.length + 1 ∧ RegexRun k false body := by
  -- Each way in which the search goes on is a constructor of the run.
  fun_induction regexBodyLength? k s generalizing n with
  | case1 | case2 | case4 => cases h
  | case3 k c s ih =>
    obtain ⟨m, hm, rfl⟩ := Option.map_eq_some_iff.1 h
    obtain ⟨body, rest, rfl, rfl, hrun⟩ := ih hm
    exact ⟨'\\' :: c :: body, rest, rfl, rfl, .escape hrun⟩
  | case5 k s _ _ _ ih =>
    obtain ⟨m, hm, rfl⟩ := Option.map_eq_some_iff.1 h
    obtain ⟨body, rest, rfl, rfl, hrun⟩ := ih hm
    exact ⟨'[' :: body, rest, rfl, rfl, .openClass hrun⟩
  | case6 k s _ _ _ _ ih =>
    obtain ⟨m, hm, rfl⟩ := Option.map_eq_some_iff.1 h
    obtain ⟨body, rest, rfl, rfl, hrun⟩ := ih hm
    exact ⟨']' :: body, rest, rfl, rfl, .closeClass hrun⟩
  | case7 k c s _ _ _ _ _ hslash =>
    obtain ⟨rfl, rfl⟩ : c = '/' ∧ k = false := by simpa using hslash
    cases h
    exact ⟨[], s, rfl, rfl, .nil⟩
  | case8 k c s hlone hpair hline hopen hclose hslash ih =>
    obtain ⟨m, hm, rfl⟩ := Option.map_eq_some_iff.1 h
    obtain ⟨body, rest, rfl, rfl, hrun⟩ := ih hm
    have hescape : c ≠ '\\' := by
      rintro rfl
      obtain ⟨d, t, ht⟩ := List.exists_cons_of_ne_nil (l := body ++ '/' :: rest) (by simp)
      exact hpair d t rfl ht
    refine ⟨c :: body, rest, rfl, rfl, ?_⟩
    by_cases hc : c = '/'
    · obtain rfl : k = true := by simpa [hc] using hslash
      exact hc ▸ .slash hrun
    · exact .plain (by simp [hescape, hopen, hclose, hc, hline]) hrun

/-- A slash that the search comes to outside of a character class closes the literal. -/
theorem RegexRun.regexBodyLength?_slash (h : RegexRun k false body) (rest : List Char) :
    regexBodyLength? k (body ++ '/' :: rest) = some (body.length + 1) := by
  simp [h.regexBodyLength?_append, regexBodyLength?_cons]

/-- A line feed that the search comes to ends it without a literal. -/
theorem RegexRun.regexBodyLength?_newline (h : RegexRun k k' body) (rest : List Char) :
    regexBodyLength? k (body ++ '\n' :: rest) = none := by
  simp [h.regexBodyLength?_append, regexBodyLength?_cons]

/-! ### Literals -/

variable {before : List Char}

/-- What the flags are counted from is what stands behind the closing slash. -/
private theorem drop_closed (c : Char) (body rest : List Char) :
    (c :: (body ++ '/' :: rest)).drop (body.length + 1 + 1) = rest := by
  rw [List.drop_succ_cons, List.append_cons, List.drop_left' (by simp)]

/-- A literal is taken whole where an expression may start and no identifier goes on behind it. -/
theorem RegexLiteral.regexLength?_append {v : List Char}
    (h : RegexLiteral (RegexRun false false) v) (htag : (skipSpace before).head? ≠ some '<')
    (hstart : expressionMayStart before = true) (hrest : ∀ c ∈ rest.head?, isIdentChar c = false) :
    regexLength? before (v ++ rest) = some v.length := by
  obtain @⟨c, body, flags, hbody, hstar, hclose, hflags⟩ := h
  have hslash : c ≠ '/' := by
    rintro rfl
    cases hbody with
    | plain hc _ => exact hc (by decide)
  have hlength := hbody.regexBodyLength?_slash (flags ++ rest)
  have hdrop := drop_closed c body (flags ++ rest)
  have hident := (takeWhile_append_of_head? hflags hrest).1
  simp only [List.cons_append, List.length_cons] at hlength
  simp only [List.cons_append, List.append_assoc, regexLength?, hslash, hstar, hclose, htag, hstart,
    hlength, hdrop, identLength, hident, decide_false, Bool.or_self, Bool.not_true,
    Bool.false_eq_true, if_false, List.length_cons, List.length_append, Option.some.injEq]
  omega

/-- A slash opens a regular expression exactly if an expression may start there and, up to where the
last identifier ends, a literal stands there. -/
theorem regexLength?_eq_some_iff :
    regexLength? before s = some n ↔
      (skipSpace before).head? ≠ some '<' ∧ expressionMayStart before = true ∧ n ≤ s.length ∧
        RegexLiteral (RegexRun false false) (s.take n) ∧
        ∀ c ∈ (s.drop n).head?, isIdentChar c = false := by
  constructor
  · intro h
    unfold regexLength? at h
    split at h
    case h_2 => cases h
    next c t =>
    split_ifs at h with hfirst hplace
    split at h <;> cases h
    next m hm =>
    simp only [Bool.or_eq_true, decide_eq_true_eq, not_or] at hfirst
    simp only [Bool.or_eq_true, decide_eq_true_eq, Bool.not_eq_true', not_or,
      Bool.not_eq_false] at hplace
    -- The body up to its slash, and then the flags: the identifier behind the slash.
    obtain ⟨body, rest, hs, rfl, hrun⟩ := exists_regexRun hm
    cases body with
    | nil => exact absurd (List.cons.inj hs).1 hfirst.1.1
    | cons d body =>
      rw [List.cons_append, List.cons.injEq] at hs
      obtain ⟨rfl, rfl⟩ := hs
      have hsplit : '/' :: c :: (body ++ '/' :: rest) =
          '/' :: c :: (body ++ '/' :: rest.takeWhile isIdentChar) ++
            rest.dropWhile isIdentChar := by simp
      have hlength : body.length + 1 + 1 + 1 + identLength rest =
          ('/' :: c :: (body ++ '/' :: rest.takeWhile isIdentChar)).length := by
        simp only [identLength, List.length_cons, List.length_append]
        omega
      rw [List.length_cons, drop_closed, hlength, hsplit,
        List.take_left, List.drop_left]
      refine ⟨hplace.1, hplace.2, ?_, .mk hrun hfirst.1.2 hfirst.2 ?_, ?_⟩
      · exact (List.prefix_append _ _).length_le
      · exact fun f hf => List.mem_takeWhile_imp hf
      · intro f hf
        have hhead := List.head?_dropWhile_not isIdentChar rest
        rw [hf] at hhead
        simpa using hhead
  · rintro ⟨htag, hstart, hle, hliteral, hrest⟩
    have h := hliteral.regexLength?_append htag hstart hrest
    rwa [List.take_append_drop, List.length_take_of_le hle] at h

/-- A slash is a division if a line feed comes first. -/
theorem RegexRun.regexLength?_newline (h : RegexRun false k body) (rest : List Char) :
    regexLength? before ('/' :: (body ++ '\n' :: rest)) = none := by
  have hsearch := h.regexBodyLength?_newline rest
  obtain ⟨c, t, ht⟩ := List.exists_cons_of_ne_nil (l := body ++ '\n' :: rest) (by simp)
  rw [ht] at hsearch ⊢
  simp [regexLength?, hsearch]

/-- Flags have no line break. -/
theorem not_newline_of_isIdentChar {flags : List Char} (h : ∀ f ∈ flags, isIdentChar f = true) :
    '\n' ∉ flags := fun hmem => absurd (h _ hmem) (by decide)

/-- A regular expression begins with a slash and is not empty. -/
theorem RegexLiteral.exists_cons {Body : List Char → Prop} {v : List Char}
    (h : RegexLiteral Body v) : ∃ c t, v = '/' :: c :: t := by
  obtain @⟨c, body, flags, -, -, -, -⟩ := h
  exact ⟨c, _, rfl⟩

/-- **Line breaks in a regular expression** are escaped. -/
theorem RegexLiteral.escapesNewlines {v : List Char} (h : RegexLiteral (RegexRun k k') v) :
    EscapesNewlines v := by
  obtain @⟨c, body, flags, hbody, -, -, hflags⟩ := h
  have hrest : EscapesNewlines ('/' :: flags) :=
    (EscapesNewlines.of_not_mem (not_newline_of_isIdentChar hflags)).cons (by decide)
  exact (hbody.escapesNewlines.append hrest).cons (by decide)

end

end ComponentAudit.Script
