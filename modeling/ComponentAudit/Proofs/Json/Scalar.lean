import ComponentAudit.Json.Parser
import ComponentAudit.Json.Printer

/-!
# Strings and numbers in JSON texts

What is written for a string, an integer or a double is read again as that, whatever follows in
the text. A string ends by itself, at its quote (`stringWalk_escaped`). A number ends where a
character follows that cannot belong to it, which every separator of a text is (`Delimited`).

Integers are read back when they fit in 64 bits. A double is written with the fewest digits that
tell it apart from other doubles, but it is read by two roundings instead of one, so not every
double comes back; `ReadsBack` says of a double that it does.
-/

namespace ComponentAudit.Json

/-! ### Strings -/

/-- A quoted string is escaped character by character. -/
theorem toList_quote (s : String) :
    (quote s).toList = '"' :: (s.toList.flatMap escapeChar ++ ['"']) := by
  simp [quote]

/-- Characters that belong to the last one are passed over. -/
theorem stringWalk_skip (keep : Bool) (done pre s : List Char) :
    stringWalk keep done pre.length (pre ++ s) = stringWalk keep done 0 s := by
  induction pre with
  | nil => rfl
  | cons c pre ih => exact ih

/-- The number of a control character is read from its two digits. -/
private theorem hexUnit?_control (rest : List Char) {n : Nat} (h : n < 0x20) :
    hexUnit? ('0' :: '0' :: hexDigit (n / 16) :: hexDigit (n % 16) :: rest) = some n := by
  have hall : ∀ n < 0x20,
      Decimal.radixValue? 16 ['0', '0', hexDigit (n / 16), hexDigit (n % 16)] = some n := by decide
  simpa [hexUnit?] using hall n h

/-- An escaped character is read as itself. -/
theorem stringWalk_escapeChar (done : List Char) (c : Char) (rest : List Char) :
    stringWalk true done 0 (escapeChar c ++ rest) = stringWalk true (c :: done) 0 rest := by
  rw [escapeChar]
  iterate 7
    split
    · next h => subst h; rfl
  split
  · next hcontrol =>
    have hunit : escaped? true ('u' :: '0' :: '0' :: hexDigit (c.toNat / 16) ::
        hexDigit (c.toNat % 16) :: rest) = some (c, 5) := by
      have hhigh : ¬ 0xD800 ≤ c.toNat := by omega
      have hlow : ¬ 0xDC00 ≤ c.toNat := by omega
      simp [escaped?, unitChar?, hexUnit?_control rest hcontrol, hhigh, hlow]
    rw [List.cons_append, stringWalk, if_neg (by decide), if_pos rfl]
    simp only [List.cons_append, List.nil_append, hunit]
    exact stringWalk_skip true (c :: done) ['u', '0', '0', _, _] rest
  · next hquote hslash _ _ _ _ _ hplain =>
    rw [List.singleton_append, stringWalk, if_neg hquote, if_neg hslash, if_neg hplain]

/-- A string is read up to its quote. -/
theorem stringWalk_escaped (done s rest : List Char) :
    stringWalk true done 0 (s.flatMap escapeChar ++ '"' :: rest) =
      some (String.ofList (done.reverse ++ s), rest) := by
  induction s generalizing done with
  | nil => simp [stringWalk]
  | cons c s ih =>
    rw [List.flatMap_cons, List.append_assoc, stringWalk_escapeChar, ih, List.reverse_cons,
      List.append_assoc, List.singleton_append]

/-- **Strings.** A quoted string is read back, whatever follows it. -/
theorem quoted_quote (s : String) (rest : List Char) :
    quoted true ((quote s).toList ++ rest) = some (s, rest) := by
  have h := stringWalk_escaped [] s.toList rest
  rw [toList_quote, List.cons_append, List.append_assoc, List.singleton_append]
  simpa [quoted] using h

/-! ### Where a number ends -/

/-- The text is over, or goes on with what may follow a value. -/
def Delimited (rest : List Char) : Prop :=
  ∀ c ∈ rest.head?, isBlank c = true ∨ c = ',' ∨ c = ']' ∨ c = '\x7d'

theorem delimited_nil : Delimited [] := by simp [Delimited]

/-- What may follow a value is no part of a number. -/
private theorem Delimited.not_digit {c : Char} {rest : List Char} (h : Delimited (c :: rest)) :
    c.isDigit = false ∧ c ≠ '.' ∧ c ≠ 'e' ∧ c ≠ 'E' := by
  have hc := h c rfl
  simp only [isBlank, Bool.or_eq_true, decide_eq_true_eq, or_assoc] at hc
  rcases hc with rfl | rfl | rfl | rfl | rfl | rfl | rfl <;> decide

/-- Digits are whole digits unless they begin with a zero that is not the only one. -/
theorem whole?_eq_some_iff {s ds r : List Char} :
    whole? s = some (ds, r) ↔ digits? s = some (ds, r) ∧ ∀ d tail, ds ≠ '0' :: d :: tail := by
  rw [whole?]
  constructor
  · intro h
    split at h
    · cases h
    · next hne => exact ⟨h, fun d tail hds => hne d tail r (hds ▸ h)⟩
  · rintro ⟨h, hne⟩
    split
    · next d tail r' h' =>
      exact absurd (congrArg Prod.fst (Option.some.inj (h.symm.trans h'))) (hne d tail)
    · exact h

private theorem splitSign_append {s : List Char} (h : s ≠ []) (rest : List Char) :
    Decimal.splitSign (s ++ rest) =
      ((Decimal.splitSign s).1, (Decimal.splitSign s).2 ++ rest) := by
  obtain ⟨c, s, rfl⟩ := List.exists_cons_of_ne_nil h
  simp only [List.cons_append, Decimal.splitSign]
  split <;> simp_all

/-- A number after its sign. -/
def unsigned (negative : Bool) : Reader NumberText := fun s => do
  let (whole, s) ← whole? s
  let (fraction, s) ← fraction? s
  let (exponent, s) ← exponent? s
  return (⟨negative, whole, fraction, exponent⟩, s)

private theorem numberText?_minus (s : List Char) : numberText? ('-' :: s) = unsigned true s := rfl

private theorem numberText?_of_ne {c : Char} (h : c ≠ '-') (s : List Char) :
    numberText? (c :: s) = unsigned false (c :: s) := by
  simp [numberText?, unsigned, h]

/-- What is read at the start of a text is read there too when `rest` follows. -/
def StopsBefore {α : Type} (rest : List Char) (read : Reader α) : Prop :=
  ∀ ⦃s a r⦄, read s = some (a, r) → read (s ++ rest) = some (a, r ++ rest)

section

variable {rest : List Char} (h : Delimited rest)
include h

/-- Digits end before what may follow a value. -/
private theorem digits_append (s : List Char) :
    (s ++ rest).takeWhile Char.isDigit = s.takeWhile Char.isDigit ∧
      (s ++ rest).dropWhile Char.isDigit = s.dropWhile Char.isDigit ++ rest := by
  induction s with
  | nil =>
    cases rest with
    | nil => exact ⟨rfl, rfl⟩
    | cons c rest => simp [h.not_digit.1]
  | cons c s ih =>
    by_cases hc : c.isDigit = true
    · simp [hc, ih]
    · simp [hc]

private theorem stopsBefore_digits? : StopsBefore rest digits? := by
  intro s ds r hs
  obtain ⟨htake, hdrop⟩ := digits_append h s
  rw [digits?] at hs ⊢
  rw [htake]
  split at hs
  · cases hs
  · next hne =>
    obtain ⟨rfl, rfl⟩ := by simpa using hs
    simp [hdrop]

private theorem stopsBefore_whole? : StopsBefore rest whole? := by
  intro s ds r hs
  obtain ⟨hdigits, hzero⟩ := whole?_eq_some_iff.1 hs
  exact whole?_eq_some_iff.2 ⟨stopsBefore_digits? h hdigits, hzero⟩

private theorem stopsBefore_fraction? : StopsBefore rest fraction? := by
  intro s found r hs
  unfold fraction? at hs
  split at hs
  · next s =>
    obtain ⟨⟨ds, r⟩, hdigits, hfound⟩ := Option.map_eq_some_iff.1 hs
    obtain ⟨rfl, rfl⟩ := by simpa using hfound
    rw [List.cons_append, fraction?, stopsBefore_digits? h hdigits]
    rfl
  · next hpoint =>
    obtain ⟨rfl, rfl⟩ := by simpa using hs
    unfold fraction?
    split
    · next r' hs =>
      cases s with
      | nil =>
        subst hs
        exact absurd rfl h.not_digit.2.1
      | cons c s =>
        obtain ⟨rfl, -⟩ := by simpa using hs
        exact absurd rfl (hpoint s)
    · rfl

private theorem stopsBefore_exponent? : StopsBefore rest exponent? := by
  intro s found r hs
  cases s with
  | nil =>
    obtain ⟨rfl, rfl⟩ := by simpa [exponent?] using hs
    cases rest with
    | nil => rfl
    | cons c rest => simp [exponent?, h.not_digit.2.2]
  | cons c s =>
    rw [exponent?] at hs
    rw [List.cons_append, exponent?]
    split
    · next he =>
      cases hsign : Decimal.splitSign s with
      | mk negative t =>
        rw [if_pos he, hsign] at hs
        obtain ⟨⟨ds, r⟩, hdigits, hfound⟩ := Option.map_eq_some_iff.1 hs
        obtain ⟨rfl, rfl⟩ := by simpa using hfound
        have hne : s ≠ [] := by
          rintro rfl
          obtain ⟨rfl, rfl⟩ := Prod.mk.inj hsign
          cases hdigits
        simp [splitSign_append hne, hsign, stopsBefore_digits? h hdigits]
    · next he =>
      obtain ⟨rfl, rfl⟩ := by simpa [he] using hs
      rfl

private theorem stopsBefore_unsigned (negative : Bool) : StopsBefore rest (unsigned negative) := by
  intro s t r hs
  simp only [unsigned, Option.bind_eq_bind, Option.bind_eq_some_iff, Option.pure_def] at hs
  obtain ⟨⟨whole, s₁⟩, hwhole, ⟨fraction, s₂⟩, hfraction, ⟨exponent, s₃⟩, hexponent, ht⟩ := hs
  obtain ⟨rfl, rfl⟩ := by simpa using ht
  simp [unsigned, stopsBefore_whole? h hwhole, stopsBefore_fraction? h hfraction,
    stopsBefore_exponent? h hexponent]

/-- A number is the same when `rest` follows it. -/
theorem stopsBefore_numberText? : StopsBefore rest numberText? := by
  intro s t r hs
  cases s with
  | nil => cases hs
  | cons c s =>
    by_cases hminus : c = '-'
    · subst hminus
      exact stopsBefore_unsigned h true hs
    · rw [numberText?_of_ne hminus] at hs
      rw [List.cons_append, numberText?_of_ne hminus]
      exact stopsBefore_unsigned h false hs

/-- A number ends where a delimiter follows. -/
theorem stopsBefore_number (keep : Bool) : StopsBefore rest (number keep) := by
  intro s v r hs
  obtain ⟨⟨t, r'⟩, ht, hv⟩ := Option.bind_eq_some_iff.1 hs
  rw [number, stopsBefore_numberText? h ht, Option.bind_some]
  cases keep with
  | false =>
    obtain ⟨rfl, rfl⟩ := by simpa using hv
    rfl
  | true =>
    obtain ⟨v', hv', hpair⟩ := Option.map_eq_some_iff.1 hv
    obtain ⟨rfl, rfl⟩ := Prod.mk.inj hpair
    simp [hv']

end

/-! ### Integers -/

/-- The digits of a number are read back. -/
theorem digitsValue_toDigits (n : Nat) : Decimal.digitsValue (Nat.toDigits 10 n) = n :=
  Nat.ofDigitChars_toDigits (by decide) (by decide)

/-- The digits of a number begin with a zero only if there is no other. -/
theorem toDigits_ne_zero_cons (n : Nat) (d : Char) (tail : List Char) :
    Nat.toDigits 10 n ≠ '0' :: d :: tail := by
  induction n using Nat.strongRecOn generalizing d tail with
  | _ n ih =>
    intro hn
    by_cases hlt : n < 10
    · simp [Nat.toDigits_of_lt_base hlt] at hn
    · rw [Nat.toDigits_of_base_le (by decide) (Nat.le_of_not_lt hlt)] at hn
      cases hdigits : Nat.toDigits 10 (n / 10) with
      | nil => exact Nat.toDigits_ne_nil hdigits
      | cons a as =>
        rw [hdigits, List.cons_append] at hn
        obtain ⟨rfl, htail⟩ := List.cons.inj hn
        cases as with
        | nil =>
          have hzero : n / 10 = 0 := by rw [← digitsValue_toDigits (n / 10), hdigits]; rfl
          omega
        | cons b bs => exact ih (n / 10) (by omega) b bs hdigits

/-- Digits alone are a number without fraction and exponent. -/
theorem unsigned_toDigits (negative : Bool) (n : Nat) :
    unsigned negative (Nat.toDigits 10 n) =
      some (⟨negative, Nat.toDigits 10 n, none, none⟩, []) := by
  have hall : ∀ c ∈ Nat.toDigits 10 n, c.isDigit = true := fun c hc =>
    Nat.isDigit_of_mem_toDigits (by decide) (by decide) hc
  have htake : (Nat.toDigits 10 n).takeWhile Char.isDigit = Nat.toDigits 10 n := by
    simpa using @List.takeWhile_append_of_pos _ _ _ [] hall
  have hdrop : (Nat.toDigits 10 n).dropWhile Char.isDigit = [] := by
    simpa using @List.dropWhile_append_of_pos _ _ _ [] hall
  have hdigits : digits? (Nat.toDigits 10 n) = some (Nat.toDigits 10 n, []) := by
    rw [digits?, htake, hdrop]
    split
    · next hnil => exact absurd hnil Nat.toDigits_ne_nil
    · rfl
  have hwhole := whole?_eq_some_iff.2 ⟨hdigits, toDigits_ne_zero_cons n⟩
  simp [unsigned, hwhole, fraction?, exponent?]

/-- Integers of 64 bits, with or without a sign. -/
def IsWord (n : Int) : Prop := -(Nat.pow 2 63 : Int) ≤ n ∧ n ≤ maxWord

/-- The integers that fit a word, signed or not. -/
theorem isWord_iff {n : Int} :
    IsWord n ↔ -9223372036854775808 ≤ n ∧ n ≤ 18446744073709551615 := Iff.rfl

private theorem numberText?_toDigits (n : Nat) :
    numberText? (Nat.toDigits 10 n) = some (⟨false, Nat.toDigits 10 n, none, none⟩, []) := by
  obtain ⟨c, ds, hds⟩ := List.exists_cons_of_ne_nil (Nat.toDigits_ne_nil (b := 10) (n := n))
  have hdigit : c.isDigit = true :=
    Nat.isDigit_of_mem_toDigits (by decide) (by decide) (hds ▸ List.mem_cons_self)
  have hminus : c ≠ '-' := by
    rintro rfl
    exact absurd hdigit (by decide)
  rw [hds, numberText?_of_ne hminus, ← hds, unsigned_toDigits]

/-- An integer of 64 bits is read back. -/
theorem number_int {n : Int} (h : IsWord n) :
    number true (scalarText (.int n)).toList = some (.int n, []) := by
  obtain ⟨hlow, hhigh⟩ := h
  cases n with
  | ofNat n =>
    have htext : (scalarText (.int (.ofNat n))).toList = Nat.toDigits 10 n := by
      simp [scalarText, Int.toString_eq_repr, Int.repr, Nat.repr_eq_ofList_toDigits]
    have hn : n ≤ maxWord := by simpa using hhigh
    rw [htext, number, numberText?_toDigits]
    simp [NumberText.value?, digitsValue_toDigits, hn]
  | negSucc n =>
    have htext : (scalarText (.int (.negSucc n))).toList = '-' :: Nat.toDigits 10 (n + 1) := by
      simp [scalarText, Int.toString_eq_repr, Int.repr, Nat.repr_eq_ofList_toDigits]
    have hn : n + 1 ≤ Nat.pow 2 63 := by omega
    rw [htext, number, numberText?_minus, unsigned_toDigits]
    simp [NumberText.value?, digitsValue_toDigits, hn, Int.negSucc_eq]

/-- Numbers begin with a sign or a digit. -/
theorem number_head {keep : Bool} {c : Char} {s r : List Char} {v : Json}
    (h : number keep (c :: s) = some (v, r)) : c = '-' ∨ c.isDigit = true := by
  by_cases hminus : c = '-'
  · exact .inl hminus
  · obtain ⟨⟨t, r'⟩, ht, -⟩ := Option.bind_eq_some_iff.1 h
    rw [numberText?_of_ne hminus, unsigned] at ht
    obtain ⟨⟨ds, r''⟩, hwhole, -⟩ := Option.bind_eq_some_iff.1 ht
    have hdigits := (whole?_eq_some_iff.1 hwhole).1
    cases hdigit : c.isDigit with
    | true => exact .inr rfl
    | false => simp [digits?, hdigit] at hdigits

/-! ### Doubles -/

/-- The text that is written for a double is a number and is read as that double. -/
def ReadsBack (x : Float) : Prop :=
  number true (scalarText (.float x)).toList = some (.float x, [])

example : ReadsBack 1.5 := rfl

/-! ### Control characters -/

/-- There are no control characters in a text, and so no line breaks. -/
def NoControl (s : List Char) : Prop := ∀ c ∈ s, 0x20 ≤ c.toNat

instance (s : List Char) : Decidable (NoControl s) :=
  List.decidableBAll (fun c : Char => 0x20 ≤ c.toNat) s

/-- A text is free of control characters if its parts are. -/
theorem noControl_append {s t : List Char} : NoControl (s ++ t) ↔ NoControl s ∧ NoControl t :=
  List.forall_mem_append

private theorem noControl_cons {c : Char} {s : List Char} :
    NoControl (c :: s) ↔ 0x20 ≤ c.toNat ∧ NoControl s :=
  List.forall_mem_cons

private theorem noControl_escapeChar (c : Char) : NoControl (escapeChar c) := by
  rw [escapeChar]
  iterate 7
    split
    · decide
  split
  · next hcontrol =>
    have hall : ∀ n < 0x20,
        NoControl ['\\', 'u', '0', '0', hexDigit (n / 16), hexDigit (n % 16)] := by decide
    exact hall c.toNat hcontrol
  · next hplain => simpa [NoControl] using hplain

/-- A quoted string has no control characters. -/
theorem noControl_quote (s : String) : NoControl (quote s).toList := by
  have hbody : NoControl (s.toList.flatMap escapeChar) := by
    intro c hc
    obtain ⟨d, -, hd⟩ := List.mem_flatMap.1 hc
    exact noControl_escapeChar d c hd
  rw [toList_quote]
  exact noControl_cons.2 ⟨by decide, noControl_append.2 ⟨hbody, by decide⟩⟩

private theorem noControl_toDigits (n : Nat) : NoControl (Nat.toDigits 10 n) := by
  intro c hc
  have hdigit : c.isDigit = true := Nat.isDigit_of_mem_toDigits (by decide) (by decide) hc
  obtain ⟨hlow, -⟩ := Char.isDigit_iff_toNat.1 hdigit
  exact Nat.le_trans (by decide) hlow

private theorem noControl_zeros (n : Nat) : NoControl (Decimal.zeros n).toList := by
  intro c hc
  rw [Decimal.zeros, String.toList_ofList] at hc
  rw [List.eq_of_mem_replicate hc]
  decide

private theorem noControl_layout (d : Decimal.Written) : NoControl d.layout.toList := by
  have hdigits := noControl_toDigits d.digits
  have htake := fun n c hc => hdigits c (List.mem_of_mem_take (i := n) hc)
  have hdrop := fun n c hc => hdigits c (List.mem_of_mem_drop (i := n) hc)
  have hsign : ∀ b : Prop, [Decidable b] → NoControl (if b then "-" else "+").toList := by
    intro b _
    split <;> decide
  rw [Decimal.Written.layout]
  dsimp only
  split
  · simp only [String.toList_append, String.toList_ofList, noControl_append]
    exact ⟨⟨hdigits, noControl_zeros _⟩, by decide⟩
  split
  · simp only [String.toList_append, String.toList_ofList, noControl_append]
    exact ⟨⟨htake _, by decide⟩, hdrop _⟩
  split
  · simp only [String.toList_append, String.toList_ofList, noControl_append]
    exact ⟨⟨by decide, noControl_zeros _⟩, hdigits⟩
  · simp only [String.toList_append, noControl_append, Decimal.digitText, String.toList_ofList]
    refine ⟨⟨⟨?_, by decide⟩, hsign _⟩, noControl_toDigits _⟩
    split
    · next h => simpa [h] using hdigits
    · next h => simpa [h, noControl_cons] using hdigits
    · decide

/-- The text of a number has no control characters. -/
theorem noControl_shortestText (x : Float) : NoControl (Decimal.shortestText x).toList := by
  have hsign : ∀ b : Prop, [Decidable b] → NoControl (if b then "-" else "").toList := by
    intro b _
    split <;> decide
  rw [Decimal.shortestText]
  split <;> rw [String.toList_append, noControl_append]
  · exact ⟨hsign _, by decide⟩
  · exact ⟨hsign _, noControl_layout _⟩

/-- What is written for a value without others has no control characters. -/
theorem noControl_scalarText (v : Json) : NoControl (scalarText v).toList := by
  unfold scalarText
  split
  · decide
  · decide
  · next n =>
    rw [Int.toString_eq_repr]
    cases n with
    | ofNat n => simpa [Int.repr, Nat.repr_eq_ofList_toDigits] using noControl_toDigits n
    | negSucc n =>
      simpa [Int.repr, Nat.repr_eq_ofList_toDigits, noControl_cons] using noControl_toDigits (n + 1)
  · next x =>
    split
    · exact noControl_shortestText x
    · decide
  · next s => exact noControl_quote s
  · decide

end ComponentAudit.Json
