import ComponentAudit.NameTable
import Mathlib.Algebra.Order.Group.Nat

/-!
# Names in the order of their bytes

Tables list their names by code points. That is the order of the encoded names as well, byte by byte
(`utf8Bytes_lt_of_lt`), because the encoding of characters keeps their order, and because the bytes
of two characters differ before either of them ends: a comparison that is settled by two characters
is settled by their bytes, whatever follows (`Settles`).

The encoding writes a code point in base 64, with the higher digits first. The number of digits is
its *width*, and the first one comes with a mark for the width (`digits`). Of two code points of one
width the first digit in which they differ decides (`settles_digits`); of different widths the mark
does (`firstByte_lt`).
-/

namespace ComponentAudit.Text

/-- The bytes of a name. -/
def utf8Bytes (s : String) : List UInt8 := s.toByteArray.data.toList

private theorem utf8Bytes_eq_flatMap (s : String) :
    utf8Bytes s = s.toList.flatMap String.utf8EncodeChar := by
  have h : s.toByteArray = s.toList.utf8Encode := by
    rw [← String.toByteArray_ofList, String.ofList_toList]
  rw [utf8Bytes, h, List.utf8Encode, List.data_toByteArray]

/-! ### Comparisons that are settled -/

/-- Whatever follows, the first bytes come before the second ones. -/
def Settles (l l' : List UInt8) : Prop := ∀ x y : List UInt8, l ++ x < l' ++ y

private theorem settles_byte {a b : Nat} (hab : a < b) (hb : b < 256) (x y : List UInt8) :
    Settles (UInt8.ofNat a :: x) (UInt8.ofNat b :: y) := by
  intro x' y'
  refine List.cons_lt_cons_iff.2 (.inl ?_)
  rw [UInt8.lt_iff_toNat_lt, UInt8.toNat_ofNat_of_lt' (Nat.lt_trans hab hb),
    UInt8.toNat_ofNat_of_lt' hb]
  exact hab

/-- A difference that settles the order does so whatever follows. -/
theorem Settles.append {l l' : List UInt8} (h : Settles l l') (r r' : List UInt8) :
    Settles (l ++ r) (l' ++ r') := by
  intro x y
  rw [List.append_assoc, List.append_assoc]
  exact h _ _

/-- A common part in front does not settle it. -/
theorem Settles.append_left {r r' : List UInt8} (h : Settles r r') (l : List UInt8) :
    Settles (l ++ r) (l ++ r') := by
  intro x y
  rw [List.append_assoc, List.append_assoc]
  exact List.append_left_lt (h _ _)

/-! ### Code points in base 64 -/

/-- A code point by `k` digits and the digits above them, to which the mark is added. -/
def digits (mark : Nat) : Nat → Nat → List UInt8
  | 0, n => [UInt8.ofNat (n + mark)]
  | k + 1, n => digits mark k (n / 64) ++ [UInt8.ofNat (n % 64 + 0x80)]

/-- The number of digits after the first byte. -/
def width (n : Nat) : Nat :=
  if n ≤ 0x7f then 0 else if n ≤ 0x7ff then 1 else if n ≤ 0xffff then 2 else 3

/-- The mark of the first byte. Marks are far enough apart to tell the widths. -/
def widthMark : Nat → Nat
  | 0 => 0
  | 1 => 0xc0
  | 2 => 0xe0
  | 3 => 0xf0
  | _ => 0xf8

private theorem toNat_lt_of_char (c : Char) : c.toNat < 0x110000 := by
  rcases c.valid with h | h
  · exact Nat.lt_trans h (by decide)
  · exact h.2

/-- The encoding of a character is its number in base 64, with a mark of its width on the first
digit. -/
theorem utf8EncodeChar_eq_digits (c : Char) :
    String.utf8EncodeChar c = digits (widthMark (width c.toNat)) (width c.toNat) c.toNat := by
  have hlt := toNat_lt_of_char c
  simp only [String.utf8EncodeChar, width, Char.toNat_val]
  split
  · rfl
  · split
    · simp (disch := omega) only [widthMark, digits, Nat.mod_eq_of_lt]
      rfl
    · split
      · simp (disch := omega) only [widthMark, digits, Nat.mod_eq_of_lt, Nat.div_div_eq_div_mul]
        rfl
      · simp (disch := omega) only [widthMark, digits, Nat.mod_eq_of_lt, Nat.div_div_eq_div_mul]
        rfl

private theorem exists_digits_eq_cons (mark k n : Nat) :
    ∃ rest, digits mark k n = UInt8.ofNat (n / 64 ^ k + mark) :: rest := by
  induction k generalizing n with
  | zero => exact ⟨[], by rw [digits, Nat.pow_zero, Nat.div_one]⟩
  | succ k ih =>
    obtain ⟨rest, hrest⟩ := ih (n / 64)
    refine ⟨rest ++ [UInt8.ofNat (n % 64 + 0x80)], ?_⟩
    rw [digits, hrest, Nat.div_div_eq_div_mul, Nat.pow_succ', List.cons_append]

/-- The first byte stays below the mark of the next width. -/
theorem firstByte_lt {n : Nat} (h : n < 0x110000) :
    n / 64 ^ width n + widthMark (width n) < widthMark (width n + 1) := by
  unfold width
  repeat' split
  all_goals
    simp only [widthMark]
    omega

/-- Of two code points of one width, the first digit in which they differ decides. -/
theorem settles_digits {mark k n m : Nat} (h : n < m) (hm : m / 64 ^ k + mark < 256) :
    Settles (digits mark k n) (digits mark k m) := by
  induction k generalizing n m with
  | zero =>
    rw [Nat.pow_zero, Nat.div_one] at hm
    exact settles_byte (Nat.add_lt_add_right h mark) hm [] []
  | succ k ih =>
    have hdigits : n / 64 < m / 64 ∨ n / 64 = m / 64 ∧ n % 64 < m % 64 := by omega
    rcases hdigits with hhigher | ⟨hhigher, hlast⟩
    · rw [Nat.pow_succ', ← Nat.div_div_eq_div_mul] at hm
      exact (ih hhigher hm).append _ _
    · rw [digits, digits, hhigher]
      exact (settles_byte (Nat.add_lt_add_right hlast 0x80) (by omega) [] []).append_left _

/-! ### Characters and names -/

private theorem width_le_three (n : Nat) : width n ≤ 3 := by
  unfold width
  repeat' split
  all_goals omega

private theorem width_le_width {n m : Nat} (h : n ≤ m) : width n ≤ width m := by
  unfold width
  repeat' split
  all_goals omega

private theorem widthMark_monotone : Monotone widthMark := by
  refine monotone_nat_of_le_succ fun k => ?_
  match k with
  | 0 | 1 | 2 | 3 => decide
  | _ + 4 => exact Nat.le_refl _

/-- The bytes of two characters settle their order. -/
theorem settles_utf8EncodeChar {c d : Char} (h : c < d) :
    Settles (String.utf8EncodeChar c) (String.utf8EncodeChar d) := by
  have hlt : c.toNat < d.toNat := h
  have hbyte : d.toNat / 64 ^ width d.toNat + widthMark (width d.toNat) < 256 :=
    Nat.lt_of_lt_of_le (firstByte_lt (toNat_lt_of_char d))
      (Nat.le_trans (widthMark_monotone (Nat.succ_le_succ (width_le_three _))) (by decide))
  rw [utf8EncodeChar_eq_digits, utf8EncodeChar_eq_digits]
  rcases Nat.lt_or_eq_of_le (width_le_width (Nat.le_of_lt hlt)) with hwidth | hwidth
  · obtain ⟨rest, hrest⟩ :=
      exists_digits_eq_cons (widthMark (width c.toNat)) (width c.toNat) c.toNat
    obtain ⟨rest', hrest'⟩ :=
      exists_digits_eq_cons (widthMark (width d.toNat)) (width d.toNat) d.toNat
    rw [hrest, hrest']
    refine settles_byte ?_ hbyte rest rest'
    calc c.toNat / 64 ^ width c.toNat + widthMark (width c.toNat)
        < widthMark (width c.toNat + 1) := firstByte_lt (toNat_lt_of_char c)
      _ ≤ widthMark (width d.toNat) := widthMark_monotone hwidth
      _ ≤ d.toNat / 64 ^ width d.toNat + widthMark (width d.toNat) := Nat.le_add_left _ _
  · rw [hwidth]
    exact settles_digits hlt hbyte

/-- Texts in the order of their characters are in the order of their bytes. -/
theorem flatMap_utf8EncodeChar_lt {s t : List Char} (h : s < t) :
    s.flatMap String.utf8EncodeChar < t.flatMap String.utf8EncodeChar := by
  induction s generalizing t with
  | nil =>
    cases t with
    | nil => exact absurd h (List.not_lt_nil [])
    | cons d t =>
      obtain ⟨b, rest, hd⟩ := List.exists_cons_of_ne_nil (@String.utf8EncodeChar_ne_nil d)
      rw [List.flatMap_nil, List.flatMap_cons, hd]
      exact List.nil_lt_cons b _
  | cons c s ih =>
    cases t with
    | nil => exact absurd h (List.not_lt_nil _)
    | cons d t =>
      rw [List.flatMap_cons, List.flatMap_cons]
      rcases List.cons_lt_cons_iff.1 h with hcd | ⟨rfl, hst⟩
      · exact settles_utf8EncodeChar hcd _ _
      · exact List.append_left_lt (ih hst)

/-- Names in order are in the order of their bytes. -/
theorem utf8Bytes_lt_of_lt {a b : String} (h : a < b) : utf8Bytes a < utf8Bytes b := by
  rw [utf8Bytes_eq_flatMap, utf8Bytes_eq_flatMap]
  exact flatMap_utf8EncodeChar_lt (String.lt_iff.1 h)

end ComponentAudit.Text
