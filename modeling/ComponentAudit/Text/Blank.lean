/-!
# Blank characters and trimming

Two notions of white space occur in source text. Code and markup are divided by the five ASCII
characters of `isSpace`; whole expressions, names and lines are trimmed of every character with
the Unicode property `White_Space`, which is `isBlank`.
-/

namespace ComponentAudit.Text

/-- The ASCII characters that separate tokens: space, tab, line feed, form feed and carriage
return. The vertical tab is not one of them. -/
def isSpace (c : Char) : Bool :=
  c = ' ' || c = '\t' || c = '\n' || c = '\x0c' || c = '\r'

/-- The characters with the Unicode property `White_Space`. -/
def isBlank (c : Char) : Bool :=
  let n := c.toNat
  (9 ≤ n && n ≤ 13) || n = 0x20 || n = 0x85 || n = 0xA0 || n = 0x1680 ||
    (0x2000 ≤ n && n ≤ 0x200A) || n = 0x2028 || n = 0x2029 || n = 0x202F || n = 0x205F ||
    n = 0x3000

/-- The text without its leading blanks. -/
def trimStart (s : List Char) : List Char := s.dropWhile isBlank

/-- The text without its trailing blanks. -/
def trimEnd (s : List Char) : List Char := (s.reverse.dropWhile isBlank).reverse

/-- The text without the blanks around it. -/
def trim (s : List Char) : List Char := trimEnd (trimStart s)

/-! ### Small facts -/

/-- Every token separator is blank. -/
theorem isBlank_of_isSpace {c : Char} (h : isSpace c = true) : isBlank c = true := by
  simp only [isSpace, Bool.or_eq_true, decide_eq_true_eq] at h
  rcases h with (((h | h) | h) | h) | h <;> subst h <;> decide

/-- Trimming makes no text longer. -/
theorem length_trimStart_le (s : List Char) : (trimStart s).length ≤ s.length :=
  (List.dropWhile_sublist isBlank).length_le

private theorem length_trimEnd_le (s : List Char) : (trimEnd s).length ≤ s.length := by
  have h : (s.reverse.dropWhile isBlank).length ≤ s.reverse.length :=
    (List.dropWhile_sublist isBlank).length_le
  simpa [trimEnd] using h

/-- Nor does trimming on both sides. -/
theorem length_trim_le (s : List Char) : (trim s).length ≤ s.length :=
  Nat.le_trans (length_trimEnd_le _) (length_trimStart_le s)

end ComponentAudit.Text
