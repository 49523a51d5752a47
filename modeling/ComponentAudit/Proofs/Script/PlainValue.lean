import ComponentAudit.Proofs.Script.Piece
import ComponentAudit.Proofs.Script.Wrapped
import ComponentAudit.Proofs.Written.Path
import Mathlib.Data.List.TakeWhile

/-!
# Plain values

A plain value is a quoted string, a number, a boolean, a member path, `null` or `undefined`. Apart
from strings, plain values are written in *solid* characters, which are not blank, begin no token
and separate nothing (`isSolid`). Digits and word characters of all scripts are solid, since none of
them is blank.

So every reader of code takes a plain value as a whole: the splitting reads it without a cut
(`PlainValue.readsWhole`), the search for a closing bracket crosses it (`PlainValue.crosses`), and
as an expression it has the value that it is written for (`PlainValue.classify_eq`).
-/

namespace ComponentAudit

/-! ### Blanks are neither digits nor word characters -/

namespace Text

/-- The blanks beyond ASCII. -/
def wideBlanks : List Nat :=
  [0x85, 0xA0, 0x1680, 0x2000, 0x2001, 0x2002, 0x2003, 0x2004, 0x2005, 0x2006, 0x2007, 0x2008,
    0x2009, 0x200A, 0x2028, 0x2029, 0x202F, 0x205F, 0x3000]

private theorem toNat_mem_wideBlanks {c : Char} (hwide : 0x80 ≤ c.toNat) (h : isBlank c = true) :
    c.toNat ∈ wideBlanks := by
  simp only [isBlank, Bool.or_eq_true, Bool.and_eq_true, decide_eq_true_eq] at h
  simp only [wideBlanks, List.mem_cons, List.not_mem_nil, or_false]
  omega

variable {c : Char}

private theorem isBlank_of_inRanges {ranges : List (Nat × Nat)}
    (hranges : ∀ n ∈ wideBlanks, inRanges ranges n = false) (hwide : 0x80 ≤ c.toNat)
    (h : inRanges ranges c.toNat = true) : isBlank c = false := by
  rw [← Bool.not_eq_true]
  intro hblank
  rw [hranges _ (toNat_mem_wideBlanks hwide hblank)] at h
  cases h

private theorem isBlank_of_isWord (h : isWord c = true) : isBlank c = false := by
  simp only [isWord, Bool.or_eq_true, Bool.and_eq_true, decide_eq_true_eq] at h
  rcases h with (h | rfl) | ⟨hwide, h⟩
  · exact Written.of_ascii (p := fun c => c.isAlphanum = true → isBlank c = false)
      (by decide +kernel) (Written.isAlphanum_toNat_lt h) h
  · decide
  · exact isBlank_of_inRanges (by decide +kernel) hwide h

private theorem isBlank_of_isDigit (h : isDigit c = true) : isBlank c = false := by
  simp only [isDigit, Bool.or_eq_true, Bool.and_eq_true, decide_eq_true_eq] at h
  rcases h with h | ⟨hwide, h⟩
  · exact isBlank_of_isWord (by simp [isWord, Char.isAlphanum, h])
  · exact isBlank_of_inRanges (by decide +kernel) hwide h

end Text

namespace Script

open Written (valueWords)

/-! ### Solid characters -/

/-- A character that is not blank, begins no token and separates nothing. -/
def isSolid (c : Char) : Bool := isInert c && c ≠ ',' && c ≠ '!' && !Text.isBlank c

section

variable {c : Char}

theorem isSolid_iff : isSolid c = true ↔
    isInert c = true ∧ c ≠ ',' ∧ c ≠ '!' ∧ Text.isBlank c = false := by
  simp [isSolid, and_assoc]

/-- All that has a meaning in code is ASCII. -/
theorem isSolid_of_wide (hwide : 0x80 ≤ c.toNat) (hblank : Text.isBlank c = false) :
    isSolid c = true := by
  have hne : ∀ d : Char, d.toNat < 0x80 → c ≠ d := by
    rintro d hd rfl
    omega
  have hplain : isPlain c = true := by
    simp only [isPlain, List.mem_cons, List.not_mem_nil, or_false, not_or, decide_eq_true_eq]
    refine ⟨?_, ?_, ?_, ?_, ?_, ?_, ?_, ?_, ?_, ?_⟩ <;> exact hne _ (by decide)
  exact isSolid_iff.2 ⟨isInert_of_isPlain hplain, hne _ (by decide), hne _ (by decide), hblank⟩

/-- Letters and digits are solid. -/
theorem isSolid_of_isAlphanum (h : c.isAlphanum = true) : isSolid c = true :=
  Written.of_ascii (p := fun c => c.isAlphanum = true → isSolid c = true) (by decide +kernel)
    (Written.isAlphanum_toNat_lt h) h

/-- A range of ASCII characters is checked one by one. -/
theorem isSolid_of_range {first last : Char}
    (h : ∀ n : Fin 128, first ≤ Char.ofNat n ∧ Char.ofNat n ≤ last → isSolid (Char.ofNat n) = true)
    (hlast : last.toNat < 128) (hc : first ≤ c ∧ c ≤ last) : isSolid c = true := by
  have hle : c.toNat ≤ last.toNat := hc.2
  exact Written.of_ascii (p := fun c => first ≤ c ∧ c ≤ last → isSolid c = true) h (by omega) hc

private theorem isSolid_of_isWord (h : Text.isWord c = true) : isSolid c = true := by
  have hblank := Text.isBlank_of_isWord h
  simp only [Text.isWord, Bool.or_eq_true, Bool.and_eq_true, decide_eq_true_eq] at h
  rcases h with (h | rfl) | ⟨hwide, -⟩
  · exact isSolid_of_isAlphanum h
  · decide
  · exact isSolid_of_wide hwide hblank

private theorem isSolid_of_isDigit (h : Text.isDigit c = true) : isSolid c = true := by
  have hblank := Text.isBlank_of_isDigit h
  simp only [Text.isDigit, Bool.or_eq_true, Bool.and_eq_true, decide_eq_true_eq] at h
  rcases h with h | ⟨hwide, -⟩
  · exact isSolid_of_isAlphanum (by simp [Char.isAlphanum, h])
  · exact isSolid_of_wide hwide hblank

end

/-- A text in solid characters. -/
def IsSolid (s : List Char) : Prop := ∀ c ∈ s, isSolid c = true

instance (s : List Char) : Decidable (IsSolid s) :=
  decidable_of_iff (s.all isSolid = true) List.all_eq_true

private theorem IsSolid.of_dropWhile {p : Char → Bool} {s : List Char}
    (hp : ∀ c, p c = true → isSolid c = true) (h : IsSolid (s.dropWhile p)) : IsSolid s := by
  rw [← List.takeWhile_append_dropWhile (p := p) (l := s), IsSolid, List.forall_mem_append]
  exact ⟨fun c hc => hp c (List.mem_takeWhile_imp hc), h⟩

/-- A solid text is read as one piece. -/
theorem IsSolid.readsWhole {s : List Char} (h : IsSolid s) (rest : List Char) :
    ReadsWhole ',' rest s :=
  readsWhole_of_isInert (fun c hc => (isSolid_iff.1 (h c hc)).1)
    fun hcomma => absurd (h _ hcomma) (by decide)

/-- The walk gets through a solid text. -/
theorem IsSolid.crosses {s : List Char} (h : IsSolid s) : Crosses s :=
  crosses_of_isInert fun c hc => (isSolid_iff.1 (h c hc)).1

private theorem isSolid_cons {c : Char} {s : List Char} (hc : isSolid c = true) (hs : IsSolid s) :
    IsSolid (c :: s) :=
  List.forall_mem_cons.2 ⟨hc, hs⟩

/-! ### Numbers -/

private theorem isSolid_of_afterDigits? {s rest : List Char} (h : afterDigits? s = some rest)
    (hrest : IsSolid rest) : IsSolid s := by
  cases s with
  | nil => cases h
  | cons c s =>
    rw [afterDigits?] at h
    split at h
    · next hdigit =>
      cases h
      exact isSolid_cons (isSolid_of_isDigit hdigit)
        (.of_dropWhile (fun _ => isSolid_of_isDigit) hrest)
    · cases h

private theorem isSolid_of_afterFraction? {s rest : List Char} (h : afterFraction? s = some rest)
    (hrest : IsSolid rest) : IsSolid s := by
  unfold afterFraction? at h
  split at h
  · exact isSolid_cons (by decide) (isSolid_of_afterDigits? h hrest)
  · cases h
    exact hrest

private theorem isSolid_of_afterExponent? {s rest : List Char} (h : afterExponent? s = some rest)
    (hrest : IsSolid rest) : IsSolid s := by
  unfold afterExponent? at h
  split at h
  · split at h
    · next c s he =>
      have hc : isSolid c = true := by
        simp only [Bool.or_eq_true, decide_eq_true_eq] at he
        rcases he with rfl | rfl <;> decide
      split at h
      · exact isSolid_cons hc (isSolid_cons (by decide) (isSolid_of_afterDigits? h hrest))
      · exact isSolid_cons hc (isSolid_cons (by decide) (isSolid_of_afterDigits? h hrest))
      · exact isSolid_cons hc (isSolid_of_afterDigits? h hrest)
    · cases h
      exact hrest
  · cases h
    exact hrest

private theorem isSolid_of_isDecimal {s : List Char} (h : isDecimal s = true) : IsSolid s := by
  cases s with
  | nil => cases h
  | cons c s =>
    simp only [isDecimal, Bool.and_eq_true, beq_iff_eq, Option.bind_eq_some_iff] at h
    obtain ⟨hdigit, rest, hfraction, hexponent⟩ := h
    have hrest := isSolid_of_afterExponent? hexponent (List.forall_mem_nil _)
    refine isSolid_cons (isSolid_of_isDigit hdigit)
      (.of_dropWhile (fun d hd => ?_) (isSolid_of_afterFraction? hfraction hrest))
    simp only [Bool.or_eq_true, decide_eq_true_eq] at hd
    rcases hd with hd | rfl
    · exact isSolid_of_isDigit hd
    · decide

private theorem isSolid_of_isRadixNumber {s : List Char} (h : isRadixNumber s = true) :
    IsSolid s := by
  unfold isRadixNumber at h
  split at h
  · next x s =>
    simp only [Bool.and_eq_true, List.contains_iff_mem] at h
    obtain ⟨⟨hmark, -⟩, hdigits⟩ := h
    have hx : ∀ x ∈ ['x', 'X', 'b', 'B', 'o', 'O'], isSolid x = true :=
      List.all_eq_true.1 (by decide)
    refine isSolid_cons (by decide) (isSolid_cons (hx _ hmark) fun c hc => ?_)
    have hdigit := List.all_eq_true.1 hdigits c hc
    simp only [Bool.or_eq_true, Bool.and_eq_true, decide_eq_true_eq] at hdigit
    rcases hdigit with ((hdigit | hlower) | hupper) | rfl
    · exact isSolid_of_isAlphanum (by simp [Char.isAlphanum, hdigit])
    · exact isSolid_of_range (by decide +kernel) (by decide) hlower
    · exact isSolid_of_range (by decide +kernel) (by decide) hupper
    · decide
  · cases h

private theorem isSolid_of_isPointNumber {s : List Char} (h : isPointNumber s = true) :
    IsSolid s := by
  unfold isPointNumber at h
  split at h
  · exact isSolid_cons (by decide)
      (isSolid_of_afterDigits? (beq_iff_eq.1 h) (List.forall_mem_nil _))
  · cases h

/-- A number is solid. -/
theorem isSolid_of_isPlainNumber {s : List Char} (h : isPlainNumber s = true) : IsSolid s := by
  simp only [isPlainNumber, Bool.or_eq_true] at h
  rcases h with (h | h) | h
  · exact isSolid_of_isRadixNumber h
  · exact isSolid_of_isDecimal h
  · exact isSolid_of_isPointNumber h

/-- Numbers are written in solid characters. -/
theorem isSolid_of_isNumber {e : List Char} (h : isNumber e = true) : IsSolid e := by
  have hmagnitude : IsSolid ((Text.stripStart? ['-'] e).getD e) := by
    simp only [isNumber, Bool.or_eq_true, Option.any_eq_true] at h
    rcases h with h | ⟨s, hs, h⟩
    · exact isSolid_of_isPlainNumber h
    · rw [Text.stripEnd?_eq_some_iff.1 hs, IsSolid, List.forall_mem_append]
      exact ⟨isSolid_of_isPlainNumber h, List.all_eq_true.1 rfl⟩
  cases hminus : Text.stripStart? ['-'] e with
  | none => rwa [hminus] at hmagnitude
  | some s =>
    rw [hminus] at hmagnitude
    rw [Text.stripStart?_eq_some_iff.1 hminus]
    exact isSolid_cons (by decide) hmagnitude

/-! ### Member paths -/

private theorem isSolid_of_isPathStart {c : Char} (h : isPathStart c = true) :
    isSolid c = true := by
  simp only [isPathStart, Bool.or_eq_true, decide_eq_true_eq] at h
  rcases h with (h | rfl) | rfl
  · exact isSolid_of_isAlphanum (by simp [Char.isAlphanum, h])
  · decide
  · decide

private theorem isSolid_of_isPathChar {c : Char} (h : isPathChar c = true) : isSolid c = true := by
  simp only [isPathChar, Bool.or_eq_true, decide_eq_true_eq] at h
  rcases h with h | rfl
  · exact isSolid_of_isWord h
  · decide

/-- So is a path. -/
theorem isSolid_of_isPathTail {s : List Char} (h : isPathTail s = true) : IsSolid s := by
  fun_induction isPathTail s with
  | case1 => exact List.forall_mem_nil _
  | case2 c s ih =>
    obtain ⟨hc, hs⟩ := Bool.and_eq_true_iff.1 h
    exact isSolid_cons (by decide) (isSolid_cons (by decide)
      (isSolid_cons (isSolid_of_isPathStart hc) (ih hs)))
  | case3 c s ih =>
    obtain ⟨hc, hs⟩ := Bool.and_eq_true_iff.1 h
    exact isSolid_cons (by decide) (isSolid_cons (isSolid_of_isPathStart hc) (ih hs))
  | case4 c s _ _ ih =>
    obtain ⟨hc, hs⟩ := Bool.and_eq_true_iff.1 h
    exact isSolid_cons (isSolid_of_isPathChar hc) (ih hs)

/-- Member paths are written in solid characters. -/
theorem isSolid_of_isMemberPath {e : List Char} (h : isMemberPath e = true) : IsSolid e := by
  cases e with
  | nil => cases h
  | cons c s =>
    obtain ⟨hc, hs⟩ := Bool.and_eq_true_iff.1 h
    exact isSolid_cons (isSolid_of_isPathStart hc) (isSolid_of_isPathTail hs)

/-! ### Values and what they say -/

/-- A plain value as it is written, and what is known of a prop with that value. -/
inductive PlainValue : List Char → PropValue → Prop
  | quoted {quote : Char} {body : List Char} : quote = '\'' ∨ quote = '"' →
      LiteralBody [quote, '\n'] body →
      PlainValue (quote :: (body ++ [quote])) (.string (String.ofList (unescape body)))
  | number {v : List Char} : isNumber v = true →
      PlainValue v (.literal (.number (String.ofList v)))
  | bool (b : Bool) : PlainValue (toString b).toList (.bool b)
  | path {v : List Char} : isMemberPath v = true → v ∉ valueWords →
      PlainValue v (.reference (String.ofList v))
  | unset {v : List Char} : v ∈ ["null", "undefined"].map String.toList → PlainValue v .unresolved

/-- A text that stands as a value by itself: it is not empty, no blanks are trimmed off its ends,
and it is no object literal. -/
structure IsOperand (v : List Char) : Prop where
  ne_nil : v ≠ []
  head : ∀ c ∈ v.head?, Text.isBlank c = false ∧ c ≠ '\x7b'
  last : ∀ c ∈ v.getLast?, Text.isBlank c = false

section

variable {v : List Char} {m : PropValue}

/-- An operand has no blanks around it. -/
theorem IsOperand.trim_eq (h : IsOperand v) : Text.trim v = v :=
  Text.trim_eq_self (fun c hc => (h.head c hc).1) h.last

/-- An operand is no object literal. -/
theorem IsOperand.enclosed?_eq_none (h : IsOperand v) : enclosed? '\x7b' v = none := by
  cases v with
  | nil => rfl
  | cons c s =>
    have hc := (h.head c rfl).2
    simp [enclosed?, hc]

/-- A solid text is an operand. -/
theorem IsSolid.isOperand (h : IsSolid v) (hne : v ≠ []) : IsOperand v where
  ne_nil := hne
  head c hc := by
    obtain ⟨hinert, -, -, hblank⟩ := isSolid_iff.1 (h c (List.mem_of_mem_head? hc))
    refine ⟨hblank, ?_⟩
    rintro rfl
    revert hinert
    decide
  last c hc := (isSolid_iff.1 (h c (List.mem_of_mem_getLast? hc))).2.2.2

/-- Nothing is taken off a text in solid characters. -/
theorem IsSolid.bareExpression_eq (h : IsSolid v) : bareExpression v = v := by
  have hblank : ∀ c ∈ v, Text.isBlank c = false := fun c hc => (isSolid_iff.1 (h c hc)).2.2.2
  refine bareExpression_eq_self (fun c hc => hblank c (List.mem_of_mem_head? hc))
    (fun c hc => hblank c (List.mem_of_mem_getLast? hc)) ?_ ?_ ?_
  · intro hopen
    exact absurd (h _ (List.mem_of_mem_head? hopen)) (by decide)
  · intro hsuffix
    exact absurd (h ' ' (hsuffix.subset (by decide))) (by decide)
  · intro hsuffix
    exact absurd (h '!' (hsuffix.subset (by decide))) (by decide)

/-- A number is kept as it is written. -/
theorem classify_of_isNumber (h : isNumber v = true) :
    classify v = some (.literal (.number (String.ofList v))) := by
  have hword : ∀ w, isNumber w = false → v ≠ w := by
    rintro w hw rfl
    rw [h] at hw
    cases hw
  rw [classify, (isSolid_of_isNumber h).bareExpression_eq, classifyBare]
  simp only [hword [] rfl, hword "null".toList (by decide), hword "undefined".toList (by decide),
    hword "true".toList (by decide), hword "false".toList (by decide), h, decide_false,
    Bool.or_self, Bool.false_eq_true, if_false, if_true]

/-- A plain value is a closed string, or a word in solid characters. -/
theorem PlainValue.quoted_or_solid (h : PlainValue v m) :
    (∃ quote body, v = quote :: (body ++ [quote]) ∧ (quote = '\'' ∨ quote = '"') ∧
      LiteralBody [quote, '\n'] body) ∨ v ≠ [] ∧ IsSolid v := by
  cases h with
  | quoted hquote hbody => exact .inl ⟨_, _, rfl, hquote, hbody⟩
  | number h =>
    refine .inr ⟨?_, isSolid_of_isNumber h⟩
    rintro rfl
    cases h
  | bool b => cases b <;> exact .inr (by decide)
  | path h _ =>
    refine .inr ⟨?_, isSolid_of_isMemberPath h⟩
    rintro rfl
    cases h
  | unset h =>
    simp only [List.map_cons, List.map_nil, List.mem_cons, List.not_mem_nil, or_false] at h
    rcases h with rfl | rfl <;> exact .inr (by decide)

/-- A plain value is an operand. -/
theorem PlainValue.isOperand (h : PlainValue v m) : IsOperand v := by
  rcases h.quoted_or_solid with ⟨quote, body, rfl, hquote, -⟩ | ⟨hne, hsolid⟩
  · have hblank : Text.isBlank quote = false ∧ quote ≠ '\x7b' := by
      rcases hquote with rfl | rfl <;> decide
    refine ⟨List.cons_ne_nil _ _, fun c hc => ?_, fun c hc => ?_⟩
    · obtain rfl : quote = c := by simpa using hc
      exact hblank
    · rw [← List.cons_append, List.getLast?_concat, Option.mem_some_iff] at hc
      exact hc ▸ hblank.1
  · exact hsolid.isOperand hne

/-- A plain value is read as one piece. -/
theorem PlainValue.readsWhole (h : PlainValue v m) (rest : List Char) : ReadsWhole ',' rest v := by
  rcases h.quoted_or_solid with ⟨quote, body, rfl, hquote, hbody⟩ | ⟨-, hsolid⟩
  · exact readsWhole_quoted hquote hbody
  · exact hsolid.readsWhole rest

/-- The walk gets through a plain value. -/
theorem PlainValue.crosses (h : PlainValue v m) : Crosses v := by
  rcases h.quoted_or_solid with ⟨quote, body, rfl, hquote, hbody⟩ | ⟨-, hsolid⟩
  · exact crosses_quoted hquote hbody
  · exact hsolid.crosses

/-- A plain value says what it is written for. -/
theorem PlainValue.classify_eq (h : PlainValue v m) : classify v = some m := by
  cases h with
  | quoted hquote hbody => exact Wrapped.bare.classify_eq (.quoted hquote hbody)
  | number h => exact classify_of_isNumber h
  | bool b => cases b <;> decide +kernel
  | path h hwords =>
    exact Written.classify_of_isMemberPath (isSolid_of_isMemberPath h).bareExpression_eq h hwords
  | unset h =>
    simp only [List.map_cons, List.map_nil, List.mem_cons, List.not_mem_nil, or_false] at h
    rcases h with rfl | rfl <;> decide +kernel

end

end Script

end ComponentAudit
