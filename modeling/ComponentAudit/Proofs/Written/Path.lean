import ComponentAudit.Proofs.Script.Expression
import ComponentAudit.Proofs.Written.Word

/-!
# Written member paths

A member path is an identifier with members behind it, each after a dot. It is none of the words
that stand for a value of their own. A path is a reference by its text
(`MemberPath.classify_chars`), and the scan takes it whole, as one identifier
(`MemberPath.pathLength_append`).
-/

namespace ComponentAudit.Written

/-- The words that stand for a value of their own. -/
def valueWords : List (List Char) := ["true", "false", "null", "undefined"].map String.toList

/-- A dotted path of ASCII identifiers that is none of the words for values. -/
structure MemberPath where
  head : Identifier
  members : List Identifier
  isReference : head.chars ++ members.flatMap (fun m => '.' :: m.chars) ∉ valueWords

/-- The text of a path. -/
def MemberPath.chars (p : MemberPath) : List Char :=
  p.head.chars ++ p.members.flatMap fun m => '.' :: m.chars

/-- The characters of member paths. -/
def isMemberChar (c : Char) : Bool := isIdentifierChar c || c = '.'

/-! ### Character classes -/

/-- What holds of the first 128 characters holds of the ASCII characters. -/
theorem of_ascii {p : Char → Prop} (h : ∀ n : Fin 128, p (Char.ofNat n)) {c : Char}
    (hc : c.toNat < 128) : p c := by
  simpa [Char.ofNat_toNat] using h ⟨c.toNat, hc⟩

theorem isAlphanum_toNat_lt {c : Char} (h : c.isAlphanum = true) : c.toNat < 128 := by
  have hranges : ((decide (65 ≤ c.toNat ∧ c.toNat ≤ 90) || (97 ≤ c.toNat && c.toNat ≤ 122)) ||
      (48 ≤ c.toNat && c.toNat ≤ 57)) = true := h
  simp only [Bool.or_eq_true, Bool.and_eq_true, decide_eq_true_eq] at hranges
  omega

theorem isMemberChar_toNat_lt {c : Char} (h : isMemberChar c = true) : c.toNat < 128 := by
  simp only [isMemberChar, isIdentifierChar, Script.isPathStart, Bool.or_eq_true,
    decide_eq_true_eq] at h
  rcases h with (((h | rfl) | rfl) | h) | rfl
  · exact isAlphanum_toNat_lt (by simp [Char.isAlphanum, h])
  · decide
  · decide
  · exact isAlphanum_toNat_lt (by simp [Char.isAlphanum, h])
  · decide

theorem isMemberChar_of_isIdentifierChar {c : Char} (h : isIdentifierChar c = true) :
    isMemberChar c = true := by
  simp [isMemberChar, h]

/-- There is no blank in a path. -/
theorem isBlank_of_isMemberChar {c : Char} (h : isMemberChar c = true) : Text.isBlank c = false :=
  of_ascii (p := fun c => isMemberChar c = true → Text.isBlank c = false) (by decide +kernel)
    (isMemberChar_toNat_lt h) h

private theorem isPathChar_of_isIdentifierChar {c : Char} (h : isIdentifierChar c = true) :
    Script.isPathChar c = true ∧ c ≠ '?' ∧ c ≠ '.' :=
  of_ascii (p := fun c =>
      isIdentifierChar c = true → Script.isPathChar c = true ∧ c ≠ '?' ∧ c ≠ '.')
    (by decide +kernel) (isMemberChar_toNat_lt (isMemberChar_of_isIdentifierChar h)) h

/-- No number, bracket or string begins like an identifier. -/
theorem isPathStart_begins {c : Char} (h : Script.isPathStart c = true) :
    Text.isDigit c = false ∧ c ∉ ['.', '-', '(', '\'', '"', '`'] :=
  of_ascii (p := fun c => Script.isPathStart c = true →
      Text.isDigit c = false ∧ c ∉ ['.', '-', '(', '\'', '"', '`'])
    (by decide +kernel)
    (isMemberChar_toNat_lt (isMemberChar_of_isIdentifierChar (isIdentifierChar_of_isPathStart h))) h

theorem Word.isIdentifierChar_of_mem (w : Identifier) : ∀ c ∈ w.chars, isIdentifierChar c = true :=
  w.forall_mem_chars (fun _ h => isIdentifierChar_of_isPathStart h) fun _ h => h

theorem MemberPath.isMemberChar_of_mem (p : MemberPath) : ∀ c ∈ p.chars, isMemberChar c = true := by
  intro c hc
  rcases List.mem_append.1 hc with hc | hc
  · exact isMemberChar_of_isIdentifierChar (p.head.isIdentifierChar_of_mem c hc)
  · obtain ⟨m, _, hc⟩ := List.mem_flatMap.1 hc
    rcases List.mem_cons.1 hc with rfl | hc
    · decide
    · exact isMemberChar_of_isIdentifierChar (m.isIdentifierChar_of_mem c hc)

/-- No other character is in a path. -/
theorem MemberPath.not_mem_chars (p : MemberPath) {c : Char} (hc : isMemberChar c = false) :
    c ∉ p.chars :=
  fun hmem => ne_of_class (p.isMemberChar_of_mem c hmem) hc rfl

/-! ### Paths as identifiers -/

/-- The path of an identifier goes on with what follows it. -/
theorem pathLength_ident_append {s : List Char} (h : ∀ c ∈ s, Script.isIdentChar c = true)
    (rest : List Char) : Script.pathLength (s ++ rest) = s.length + Script.pathLength rest := by
  induction s with
  | nil => simp
  | cons c s ih =>
    rw [List.cons_append, Script.pathLength, if_pos (h c List.mem_cons_self),
      ih fun d hd => h d (List.mem_cons_of_mem c hd), List.length_cons]
    omega

theorem Word.isIdentChar_of_mem (w : Identifier) : ∀ c ∈ w.chars, Script.isIdentChar c = true :=
  fun c hc => isIdentChar_of_isIdentifierChar (w.isIdentifierChar_of_mem c hc)

/-- A path counts as part of the identifier it begins. -/
theorem MemberPath.pathLength_append (p : MemberPath) (rest : List Char) :
    Script.pathLength (p.chars ++ rest) = p.chars.length + Script.pathLength rest := by
  have hmembers : ∀ ms : List Identifier,
      Script.pathLength (ms.flatMap (fun m => '.' :: m.chars) ++ rest) =
        (ms.flatMap fun m => '.' :: m.chars).length + Script.pathLength rest := by
    intro ms
    induction ms with
    | nil => simp
    | cons m ms ih =>
      have hstart : Script.isIdentStart m.head = true := isIdentStart_of_isPathStart m.head_first
      have hdot : Script.pathLength
          ('.' :: (m.chars ++ (ms.flatMap (fun m => '.' :: m.chars) ++ rest))) =
            Script.pathLength (m.chars ++ (ms.flatMap (fun m => '.' :: m.chars) ++ rest)) + 1 := by
        rw [Script.pathLength]
        simp [Word.chars, hstart, show Script.isIdentChar '.' = false by decide]
      rw [List.flatMap_cons, List.cons_append, List.cons_append, List.append_assoc, hdot,
        pathLength_ident_append m.isIdentChar_of_mem, ih, List.length_cons, List.length_append]
      omega
  rw [MemberPath.chars, List.append_assoc, pathLength_ident_append p.head.isIdentChar_of_mem,
    hmembers, List.length_append, Nat.add_assoc]

/-! ### Paths as references -/

private theorem isPathTail_ident_append {s : List Char} (h : ∀ c ∈ s, isIdentifierChar c = true)
    (rest : List Char) : Script.isPathTail (s ++ rest) = Script.isPathTail rest := by
  induction s with
  | nil => rfl
  | cons c s ih =>
    obtain ⟨hc, hquestion, hdot⟩ := isPathChar_of_isIdentifierChar (h c List.mem_cons_self)
    have hstep : Script.isPathTail (c :: (s ++ rest)) =
        (Script.isPathChar c && Script.isPathTail (s ++ rest)) := by
      rw [Script.isPathTail]
      · exact fun s _ hc => absurd hc hquestion
      · exact fun s _ hc => absurd hc hdot
    rw [List.cons_append, hstep, hc, Bool.true_and, ih fun d hd => h d (List.mem_cons_of_mem c hd)]

/-- A path is recognized as one. -/
theorem MemberPath.isMemberPath_chars (p : MemberPath) : Script.isMemberPath p.chars = true := by
  have hmembers : ∀ ms : List Identifier,
      Script.isPathTail (ms.flatMap fun m => '.' :: m.chars) = true := by
    intro ms
    induction ms with
    | nil => rfl
    | cons m ms ih =>
      rw [List.flatMap_cons, Word.chars, List.cons_append, List.cons_append, Script.isPathTail,
        m.head_first, Bool.true_and,
        isPathTail_ident_append fun c hc => List.all_eq_true.1 m.tail_more c hc, ih]
  rw [MemberPath.chars, Word.chars, List.cons_append, Script.isMemberPath, p.head.head_first,
    Bool.true_and, isPathTail_ident_append fun c hc => List.all_eq_true.1 p.head.tail_more c hc,
    hmembers]

/-- A path begins with its first identifier. -/
theorem MemberPath.chars_eq_cons (p : MemberPath) :
    ∃ s, p.chars = p.head.head :: s :=
  ⟨_, rfl⟩

private theorem MemberPath.bareExpression_chars (p : MemberPath) :
    Script.bareExpression p.chars = p.chars := by
  have hmem := p.isMemberChar_of_mem
  have hblank : ∀ c ∈ p.chars, Text.isBlank c = false :=
    fun c hc => isBlank_of_isMemberChar (hmem c hc)
  refine Script.bareExpression_eq_self (fun c hc => hblank c (List.mem_of_mem_head? hc))
    (fun c hc => hblank c (List.mem_of_mem_getLast? hc)) ?_ ?_ ?_
  · intro hopen
    exact absurd (hmem _ (List.mem_of_mem_head? hopen)) (by decide)
  · intro hsuffix
    exact absurd (hmem ' ' (hsuffix.subset (by decide))) (by decide)
  · intro hsuffix
    exact absurd (hmem '!' (hsuffix.subset (by decide))) (by decide)

/-- An expression in the form of a path, from which nothing is taken off, is a reference. -/
theorem classify_of_isMemberPath {e : List Char} (hbare : Script.bareExpression e = e)
    (hpath : Script.isMemberPath e = true) (hwords : e ∉ valueWords) :
    Script.classify e = some (.reference (String.ofList e)) := by
  simp only [valueWords, List.map_cons, List.map_nil, List.mem_cons, List.not_mem_nil, or_false,
    not_or] at hwords
  obtain ⟨htrue, hfalse, hnull, hundefined⟩ := hwords
  obtain ⟨c, s, rfl⟩ : ∃ c s, e = c :: s := by
    refine List.exists_cons_of_ne_nil ?_
    rintro rfl
    cases hpath
  -- The first character rules out numbers and strings, which are tried before paths.
  obtain ⟨hdigit, hbegins⟩ := isPathStart_begins (Bool.and_eq_true_iff.1 hpath).1
  simp only [List.mem_cons, List.not_mem_nil, or_false, not_or] at hbegins
  obtain ⟨hpoint, hminus, _, hquote, hdouble, htick⟩ := hbegins
  have hnumber : Script.isNumber (c :: s) = false := by
    refine Script.isNumber_of_head fun d hd => ?_
    obtain rfl : c = d := by simpa using hd
    exact ⟨hdigit, hpoint, hminus⟩
  have hstring : Script.readString (c :: s) = .other := by
    rw [Script.readString]
    simp [hquote, hdouble, htick]
  rw [Script.classify, hbare, Script.classifyBare]
  simp only [List.cons_ne_nil, htrue, hfalse, hnull, hundefined, hnumber, hstring, hpath,
    decide_false, Bool.or_self, Bool.false_eq_true, if_false, if_true]

/-- A path is a reference by its text. -/
theorem MemberPath.classify_chars (p : MemberPath) :
    Script.classify p.chars = some (.reference (String.ofList p.chars)) :=
  classify_of_isMemberPath p.bareExpression_chars p.isMemberPath_chars p.isReference

end ComponentAudit.Written
