import ComponentAudit.Proofs.Invocation.Basic

/-!
# Words and plain texts

The smallest pieces of written code and markup. A *word* is a first character of one class followed
by characters of another: the names of elements and attributes are words, and so are identifiers. A
*plain text* is free of the characters that would end it. Both carry the proof of their form, so
that a printed tree needs no separate condition on its names and texts.

The readers of the project take words by their character classes. `Word.takeWhile_chars` says that
they take a word whole, and stop where it ends.
-/

namespace ComponentAudit.Written

/-! ### Plain texts -/

/-- A text without the given characters. -/
structure PlainText (avoided : List Char) where
  chars : List Char
  avoids : ∀ c ∈ avoided, c ∉ chars

/-- A plain text, given by a test of its characters. -/
def PlainText.ofAll {avoided : List Char} (chars : List Char)
    (h : chars.all (fun c => c ∉ avoided) = true) : PlainText avoided where
  chars
  avoids c hc hmem := of_decide_eq_true (List.all_eq_true.1 h c hmem) hc

/-! ### Words -/

/-- A character of the class `first`, then characters of the class `more`. -/
structure Word (first more : Char → Bool) where
  head : Char
  tail : List Char
  head_first : first head = true
  tail_more : tail.all more = true

/-- A word, given by a test of its characters. -/
def Word.ofAll {first more : Char → Bool} (head : Char) (tail : List Char)
    (h : (first head && tail.all more) = true) : Word first more where
  head
  tail
  head_first := (Bool.and_eq_true_iff.1 h).1
  tail_more := (Bool.and_eq_true_iff.1 h).2

/-- The text of a word. -/
def Word.chars {first more : Char → Bool} (w : Word first more) : List Char := w.head :: w.tail

/-- The characters of element and attribute names after the first. -/
def isNameChar (c : Char) : Bool := c.isAlphanum || c = '-'

/-- The ASCII characters of identifiers after the first. -/
def isIdentifierChar (c : Char) : Bool := Script.isPathStart c || c.isDigit

/-- A name of an element or attribute: a letter, then letters, digits and dashes. -/
abbrev Name := Word Char.isAlpha isNameChar

/-- An ASCII identifier. -/
abbrev Identifier := Word Script.isPathStart isIdentifierChar

section Word

variable {first more p : Char → Bool} (w : Word first more)

/-- A class that covers both classes of a word covers the word. -/
theorem Word.forall_mem_chars (hfirst : ∀ c, first c = true → p c = true)
    (hmore : ∀ c, more c = true → p c = true) : ∀ c ∈ w.chars, p c = true := by
  intro c hc
  rcases List.mem_cons.1 hc with rfl | hc
  · exact hfirst _ w.head_first
  · exact hmore c (List.all_eq_true.1 w.tail_more c hc)

/-- A word is taken whole where a class that covers it ends with it. -/
theorem Word.takeWhile_chars (hp : ∀ c ∈ w.chars, p c = true) {rest : List Char}
    (hrest : rest.takeWhile p = []) : (w.chars ++ rest).takeWhile p = w.chars := by
  rw [List.takeWhile_append_of_pos hp, hrest, List.append_nil]

end Word

/-! ### Character classes -/

theorem ne_of_class {p : Char → Bool} {c d : Char} (hc : p c = true) (hd : p d = false) :
    c ≠ d := by
  rintro rfl
  rw [hc] at hd
  cases hd

private theorem isNameChar_of_isAlpha {c : Char} (h : c.isAlpha = true) : isNameChar c = true := by
  simp [isNameChar, Char.isAlphanum, h]

private theorem isTagChar_of_isNameChar {c : Char} (h : isNameChar c = true) :
    isTagChar c = true := by
  simp only [isNameChar, Char.isAlphanum, Bool.or_eq_true, decide_eq_true_eq] at h
  rcases h with (h | h) | rfl
  · simp [isTagChar, Script.isIdentChar, Script.isIdentStart, h]
  · simp [isTagChar, Script.isIdentChar, h]
  · decide

private theorem isAttrChar_of_isNameChar {c : Char} (h : isNameChar c = true) :
    isAttrChar c = true := by
  simp only [isNameChar, Char.isAlphanum, Bool.or_eq_true, decide_eq_true_eq] at h
  rcases h with (h | h) | rfl
  · simp [isAttrChar, Script.isIdentChar, Script.isIdentStart, h]
  · simp [isAttrChar, Script.isIdentChar, h]
  · decide

theorem isIdentifierChar_of_isPathStart {c : Char} (h : Script.isPathStart c = true) :
    isIdentifierChar c = true := by
  simp [isIdentifierChar, h]

theorem isIdentStart_of_isPathStart {c : Char} (h : Script.isPathStart c = true) :
    Script.isIdentStart c = true := by
  simp only [Script.isPathStart, Bool.or_eq_true, decide_eq_true_eq] at h
  rcases h with (h | rfl) | rfl
  · simp [Script.isIdentStart, h]
  · decide
  · decide

/-- What is part of an identifier is so to the scan. -/
theorem isIdentChar_of_isIdentifierChar {c : Char} (h : isIdentifierChar c = true) :
    Script.isIdentChar c = true := by
  simp only [isIdentifierChar, Bool.or_eq_true] at h
  rcases h with h | h
  · simp [Script.isIdentChar, isIdentStart_of_isPathStart h]
  · simp [Script.isIdentChar, h]

/-! ### Names -/

/-- A name may be that of a tag. -/
theorem Word.isTagChar_of_mem_name (w : Name) : ∀ c ∈ w.chars, isTagChar c = true :=
  w.forall_mem_chars (fun _ h => isTagChar_of_isNameChar (isNameChar_of_isAlpha h))
    fun _ h => isTagChar_of_isNameChar h

/-- A name may be that of an attribute. -/
theorem Word.isAttrChar_of_mem_name (w : Name) : ∀ c ∈ w.chars, isAttrChar c = true :=
  w.forall_mem_chars (fun _ h => isAttrChar_of_isNameChar (isNameChar_of_isAlpha h))
    fun _ h => isAttrChar_of_isNameChar h

/-- No other character is in a name. -/
theorem Word.not_mem_name (w : Name) {d : Char} (hd : isNameChar d = false) : d ∉ w.chars :=
  fun hmem => ne_of_class
    (w.forall_mem_chars (fun _ h => isNameChar_of_isAlpha h) (fun _ h => h) d hmem) hd rfl

end ComponentAudit.Written
