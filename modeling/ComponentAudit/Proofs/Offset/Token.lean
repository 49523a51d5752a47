import ComponentAudit.Proofs.Offset.Basic
import ComponentAudit.Proofs.Script.Bracket
import ComponentAudit.Proofs.Text.Search

/-!
# Tokens by byte offsets

The ends of the tokens of script code, as bytes. Each function stops at the place that the length
of the token gives, so the byte it answers with begins a character; `passWhile_eq`, `stringEnd_eq`,
`commentEnd?_eq` and `regexEnd?_eq` say so.

A backslash takes the next byte with it, which may be only the first of a character. The bytes that
are left of the character are beyond ASCII, and no loop stops at them.
-/

namespace ComponentAudit.Offset

open Script

variable {text s : List Char} {n e f : Nat} {c : Char}

/-! ### Runs of a class -/

def whileStep (p : Char → Bool) (text : List Char) (_ : Unit) (i : Nat) :
    Checked (Turn Unit Nat) := do
  let u ← byteAt text i
  return if p u then .next () (i + 1) else .done i

/-- The end of the bytes of a class from `i` on. -/
def passWhile (p : Char → Bool) (text : List Char) (i bound : Nat) : Checked Nat :=
  loop bound (whileStep p text) (fun _ i => i) () i

/-- Bytes are passed over up to the first character that is not in the class. -/
theorem passWhile_eq {p : Char → Bool} (hp : AsciiOnly p) (h : Span text n e s) :
    passWhile p text (offset text n) (offset text e) =
      .ok (offset text (n + (s.takeWhile p).length)) := by
  rw [passWhile]
  induction s generalizing n with
  | nil =>
    obtain rfl : e = n := h.stop_eq
    rw [loop_finish (Nat.le_refl _)]
    rfl
  | cons c s ih =>
    have hlt : offset text n < offset text e := offset_lt_iff.2 h.lt
    have hread := h.byteAt_lead
    by_cases hc : p c = true
    · have hstep : whileStep p text () (offset text n) = .ok (.next () (offset text n + 1)) := by
        simp [whileStep, hread, hp.lead, hc]
      rw [loop_next hlt hstep (Nat.lt_succ_self _), h.loop_succ, ih h.tail,
        List.takeWhile_cons_of_pos hc, List.length_cons, Nat.add_right_comm]
      · rfl
      · intro hhigh k u hk hu
        simp [whileStep, hk, hp u c hu hhigh, hc]
    · have hstep : whileStep p text () (offset text n) = .ok (.done (offset text n)) := by
        simp [whileStep, hread, hp.lead, hc]
      rw [loop_done hlt hstep, List.takeWhile_cons_of_neg hc]
      rfl

/-- A text up to the end of its longest prefix with a property is that prefix. -/
theorem take_length_takeWhile (p : Char → Bool) (s : List Char) :
    s.take (s.takeWhile p).length = s.takeWhile p :=
  (List.prefix_iff_eq_take.1 (List.takeWhile_prefix p)).symm

/-- A text from there on. -/
theorem drop_length_takeWhile (p : Char → Bool) (s : List Char) :
    s.drop (s.takeWhile p).length = s.dropWhile p := by
  have h := List.take_append_drop (s.takeWhile p).length s
  rw [take_length_takeWhile] at h
  exact List.append_cancel_left (h.trans List.takeWhile_append_dropWhile.symm)

/-- The start of the bytes of a class before `k`, not below `lo`. -/
def passBack (p : Char → Bool) (text : List Char) (lo : Nat) : Nat → Checked Nat
  | 0 => .ok 0
  | k + 1 =>
    if lo < k + 1 then do
      let u ← byteAt text k
      if p u then passBack p text lo k else return k + 1
    else return k + 1

private theorem passBack_pass {p : Char → Bool} {lo i j : Nat} (hlo : lo ≤ i) (hij : i ≤ j)
    (h : ∀ k, i ≤ k → k < j → ∃ u, p u = true ∧ byteAt text k = .ok u) :
    passBack p text lo j = passBack p text lo i := by
  obtain ⟨d, rfl⟩ := Nat.exists_eq_add_of_le hij
  clear hij
  induction d with
  | zero => rfl
  | succ d ih =>
    obtain ⟨u, hu, hk⟩ := h (i + d) (Nat.le_add_right _ _) (Nat.lt_succ_self _)
    rw [← Nat.add_assoc, passBack, if_pos (by omega), hk, ok_bind, if_pos hu,
      ih fun k hk hk' => h k hk (by omega)]

private theorem passBack_eq {p : Char → Bool} (hp : AsciiOnly p) {before : List Char}
    (h : Span text f n before.reverse) :
    passBack p text (offset text f) (offset text n) =
      .ok (offset text (n - (before.takeWhile p).length)) := by
  induction before generalizing n with
  | nil =>
    obtain rfl : n = f := by simpa using h.stop_eq
    cases hn : offset text n with
    | zero => simp [passBack, hn]
    | succ k => simp [passBack, hn]
  | cons c before ih =>
    rw [List.reverse_cons] at h
    obtain ⟨m, rfl, hbefore, hc⟩ := h.unsnoc
    have hpos := offset_lt_succ text m
    have hle : offset text f ≤ offset text m := by
      rw [offset_le_iff, hbefore.stop_eq]
      exact Nat.le_add_right _ _
    -- A character that passes is passed byte by byte; one that does not is told by its last byte.
    by_cases hpc : p c = true
    · rw [passBack_pass hle (Nat.le_of_lt hpos) fun k hk hk' => ?_, ih hbefore,
        List.takeWhile_cons_of_pos hpc, List.length_cons, Nat.add_sub_add_right]
      by_cases hhigh : c.toNat < 128
      · obtain rfl : k = offset text m := by
          have := hc.offset_succ_of_lt hhigh
          omega
        exact ⟨lead c, by rw [hp.lead, hpc], hc.byteAt_lead⟩
      · obtain ⟨u, hu, hread⟩ := hc.byteAt_high (Nat.le_of_not_lt hhigh) hk hk'
        exact ⟨u, by rw [hp u c hu (Nat.le_of_not_lt hhigh), hpc], hread⟩
    · obtain ⟨k, hk⟩ := Nat.exists_eq_add_one.2 (Nat.lt_of_le_of_lt (Nat.zero_le _) hpos)
      have hread := hc.byteAt_trail
      rw [hk, Nat.add_sub_cancel] at hread
      rw [hk, passBack, if_pos (by omega), hread, ok_bind, hp.trail, if_neg hpc,
        List.takeWhile_cons_of_neg hpc, ← hk]
      rfl

/-! ### Classes of characters -/

/-- A class with everything beyond ASCII in it. -/
theorem asciiOnly_of_true {p : Char → Bool} (h : ∀ u : Char, 128 ≤ u.toNat → p u = true) :
    AsciiOnly p := fun u v hu hv => by rw [h u hu, h v hv]

/-- A class with nothing beyond ASCII in it. -/
theorem asciiOnly_of_false {p : Char → Bool} (h : ∀ u : Char, 128 ≤ u.toNat → p u = false) :
    AsciiOnly p := fun u v hu hv => by rw [h u hu, h v hv]

private theorem asciiOnly_contains {l : List Char} (hl : ∀ x ∈ l, x.toNat < 128) :
    AsciiOnly l.contains := by
  refine asciiOnly_of_false fun u hu => ?_
  rw [Bool.eq_false_iff, Ne, List.contains_iff_mem]
  exact fun hmem => ne_of_le (hl u hmem) hu rfl

theorem isIdentStart_of_le {u : Char} (h : 128 ≤ u.toNat) : isIdentStart u = true := by
  simp [isIdentStart, h]

theorem isIdentChar_of_le {u : Char} (h : 128 ≤ u.toNat) : isIdentChar u = true := by
  simp [isIdentChar, isIdentStart_of_le h]

theorem isSpace_of_le {u : Char} (h : 128 ≤ u.toNat) : Text.isSpace u = false := by
  have hne : ∀ x : Char, x.toNat < 128 → u ≠ x := fun x hx => ne_of_le hx h
  simp [Text.isSpace, hne]

theorem asciiOnly_isIdentStart : AsciiOnly isIdentStart :=
  asciiOnly_of_true fun _ => isIdentStart_of_le

theorem asciiOnly_isIdentChar : AsciiOnly isIdentChar :=
  asciiOnly_of_true fun _ => isIdentChar_of_le

theorem asciiOnly_isSpace : AsciiOnly Text.isSpace := asciiOnly_of_false fun _ => isSpace_of_le

/-- The end of the separators from `i` on. -/
def spaceEnd (text : List Char) (i bound : Nat) : Checked Nat := passWhile Text.isSpace text i bound

/-- The end of the identifier from `i` on. -/
def identEnd (text : List Char) (i bound : Nat) : Checked Nat := passWhile isIdentChar text i bound

/-- Blanks end at the same place on both sides. -/
theorem spaceEnd_eq (h : Span text n e s) :
    spaceEnd text (offset text n) (offset text e) = .ok (offset text (n + spaceLength s)) :=
  passWhile_eq asciiOnly_isSpace h

/-- The span behind blanks. -/
theorem Span.skipSpace (h : Span text n e s) :
    Span text (n + spaceLength s) e (Script.skipSpace s) := by
  rw [Script.skipSpace, ← drop_length_takeWhile]
  exact h.drop (List.takeWhile_sublist _).length_le

/-- An identifier ends at the same place on both sides. -/
theorem identEnd_eq (h : Span text n e s) :
    identEnd text (offset text n) (offset text e) = .ok (offset text (n + identLength s)) :=
  passWhile_eq asciiOnly_isIdentChar h

/-! ### Strings -/

def stringStep (text : List Char) (quote : Char) (_ : Unit) (j : Nat) :
    Checked (Turn Unit Nat) := do
  let u ← byteAt text j
  return if u = '\\' then .next () (j + 2)
    else if u = '\n' then .done j
    else if u = quote then .done (j + 1)
    else .next () (j + 1)

/-- The end of the string whose opening quote is at `i`. -/
def stringEnd (text : List Char) (i bound : Nat) : Checked Nat := do
  let quote ← byteAt text i
  loop bound (stringStep text quote) (fun _ _ => bound) () (i + 1)

private theorem stringStep_high {quote : Char} (hq : quote.toNat < 128) (k : Nat) (u : Char)
    (hk : byteAt text k = .ok u) (hu : 128 ≤ u.toNat) :
    stringStep text quote () k = .ok (.next () (k + 1)) := by
  have hne : ∀ x : Char, x.toNat < 128 → u ≠ x := fun x hx => ne_of_le hx hu
  simp [stringStep, hk, hne, hq]

/-- A character that begins no escape is no backslash. -/
theorem ne_of_not_escape (hlone : c = '\\' → s = [] → False)
    (hpair : ∀ x t, c = '\\' → s = x :: t → False) : c ≠ '\\' := by
  rintro rfl
  cases s with
  | nil => exact hlone rfl rfl
  | cons x t => exact hpair x t rfl rfl

private theorem loop_stringStep {quote : Char} (hq : quote.toNat < 128) (h : Span text n e s) :
    loop (offset text e) (stringStep text quote) (fun _ _ => offset text e) () (offset text n) =
      .ok (offset text (n + quotedLength quote s)) := by
  fun_induction quotedLength quote s generalizing n with
  | case1 =>
    obtain rfl : e = n := h.stop_eq
    exact loop_finish (Nat.le_refl _)
  | case2 =>
    -- The jump over an escaped character that is not there ends beyond the text.
    have hlt : offset text n < offset text e := offset_lt_iff.2 h.lt
    have hstep : stringStep text quote () (offset text n) = .ok (.next () (offset text n + 2)) := by
      simp [stringStep, h.byteAt_lead, lead_eq_iff]
    obtain rfl : e = n + 1 := h.stop_eq
    have hend := h.offset_succ_of_lt (by decide)
    rw [loop_next hlt hstep (by omega), loop_finish (by omega)]
  | case3 c s ih =>
    have hlt : offset text n < offset text e := offset_lt_iff.2 h.lt
    have hstep : stringStep text quote () (offset text n) = .ok (.next () (offset text n + 2)) := by
      simp [stringStep, h.byteAt_lead, lead_eq_iff]
    have hnext := h.offset_succ_of_lt (by decide)
    rw [loop_next hlt hstep (by omega), show offset text n + 2 = offset text (n + 1) + 1 by omega,
      h.tail.loop_succ fun _ => stringStep_high hq, ih h.tail.tail]
    congr 2
    omega
  | case4 s hesc hesc' =>
    have hlt : offset text n < offset text e := offset_lt_iff.2 h.lt
    refine loop_done hlt ?_
    simp [stringStep, h.byteAt_lead, lead_eq_iff]
  | case5 s hlone hpair hline =>
    have hlt : offset text n < offset text e := offset_lt_iff.2 h.lt
    refine loop_done hlt ?_
    simp [stringStep, h.byteAt_lead, lead_eq_iff, hq, ne_of_not_escape hlone hpair, hline,
      h.offset_succ_of_lt hq]
  | case6 c s hlone hpair hline hquote ih =>
    have hlt : offset text n < offset text e := offset_lt_iff.2 h.lt
    have hstep : stringStep text quote () (offset text n) = .ok (.next () (offset text n + 1)) := by
      simp [stringStep, h.byteAt_lead, lead_eq_iff, hq, ne_of_not_escape hlone hpair, hline, hquote]
    rw [loop_next hlt hstep (Nat.lt_succ_self _), h.loop_succ fun _ => stringStep_high hq,
      ih h.tail]
    congr 2
    omega

/-- A string literal ends at the same place on both sides. -/
theorem stringEnd_eq (h : Span text n e (c :: s)) (hc : c = '\'' ∨ c = '"') :
    stringEnd text (offset text n) (offset text e) =
      .ok (offset text (n + 1 + quotedLength c s)) := by
  have hlt := lt_of_isQuote hc
  rw [stringEnd, h.byteAt_lead, ok_bind, lead_of_lt hlt, h.offset_succ_of_lt hlt,
    loop_stringStep hlt h.tail]

/-- A string literal is within the text. -/
theorem quotedLength_le (quote : Char) (s : List Char) : quotedLength quote s ≤ s.length := by
  fun_induction quotedLength quote s <;> simp only [List.length_cons, List.length_nil] <;> omega

/-! ### Comments -/

/-- The end of the line comment at `i`. -/
def lineCommentEnd (text : List Char) (i bound : Nat) : Checked Nat :=
  passWhile (· ≠ '\n') text i bound

def blockStep (text : List Char) (_ : Unit) (j : Nat) : Checked (Turn Unit Nat) := do
  let u ← byteAt text j
  if u = '*' then
    let v ← byteAt text (j + 1)
    return if v = '/' then .done (j + 2) else .next () (j + 1)
  else return .next () (j + 1)

/-- The end of the block comment at `i`. -/
def blockCommentEnd (text : List Char) (i bound : Nat) : Checked Nat :=
  loop (bound - 1) (blockStep text) (fun _ _ => bound) () (i + 2)

/-- The end of the comment at `i`, if one starts there. -/
def commentEnd? (text : List Char) (i bound : Nat) : Checked (Option Nat) :=
  if bound ≤ i + 1 then return none
  else do
    let u ← byteAt text i
    if u ≠ '/' then return none
    else
      let v ← byteAt text (i + 1)
      if v = '/' then return some (← lineCommentEnd text i bound)
      else if v = '*' then return some (← blockCommentEnd text i bound)
      else return none

private theorem lineCommentEnd_eq (h : Span text n e s) :
    lineCommentEnd text (offset text n) (offset text e) =
      .ok (offset text (n + (s.takeWhile (· ≠ '\n')).length)) :=
  passWhile_eq (asciiOnly_of_true fun u hu => by simp [ne_of_le (x := '\n') (by decide) hu]) h

private theorem blockStep_high (k : Nat) (u : Char) (hk : byteAt text k = .ok u)
    (hu : 128 ≤ u.toNat) :
    blockStep text () k = .ok (.next () (k + 1)) := by
  simp [blockStep, hk, ne_of_le (x := '*') (by decide) hu]

/-- A block comment is passed over character by character. -/
theorem blockCommentLength_cons (c : Char) (s : List Char) :
    blockCommentLength (c :: s) =
      if c = '*' ∧ s.head? = some '/' then 2 else blockCommentLength s + 1 := by
  have hstart : Text.startsWith ['*', '/'] (c :: s) = true ↔ c = '*' ∧ s.head? = some '/' := by
    rw [Text.startsWith_iff_isPrefix]
    cases s <;> simp [eq_comm]
  rw [blockCommentLength, Text.find?, Text.findWhere?_cons, blockCommentLength, Text.find?]
  simp only [hstart]
  by_cases h : c = '*' ∧ s.head? = some '/'
  · simp [h]
  · rw [if_neg h, if_neg h]
    cases Text.findWhere? (Text.startsWith ['*', '/']) s <;> simp [Nat.add_right_comm]

private theorem blockCommentLength_le (s : List Char) : blockCommentLength s ≤ s.length := by
  induction s with
  | nil => exact Nat.le_refl 0
  | cons c s ih =>
    rw [blockCommentLength_cons]
    split
    · next hend => cases s <;> simp_all
    · exact Nat.succ_le_succ ih

/-- A comment is within the text. -/
theorem commentLength?_le {k : Nat} (h : commentLength? s = some k) : k ≤ s.length := by
  unfold commentLength? at h
  split at h
  · cases h
    exact Nat.add_le_add_right (List.takeWhile_sublist _).length_le 2
  · cases h
    exact Nat.add_le_add_right (blockCommentLength_le _) 2
  · cases h

private theorem loop_blockStep (h : Span text n e s) :
    loop (offset text e - 1) (blockStep text) (fun _ _ => offset text e) () (offset text n) =
      .ok (offset text (n + blockCommentLength s)) := by
  induction s generalizing n with
  | nil =>
    obtain rfl : e = n := h.stop_eq
    exact loop_finish (Nat.sub_le _ _)
  | cons c s ih =>
    rw [blockCommentLength_cons]
    cases s with
    | nil =>
      -- The last character cannot begin the end of the comment.
      obtain rfl : e = n + 1 := h.stop_eq
      have hpos := offset_lt_succ text n
      have hlast : offset text n ≤ offset text (n + 1) - 1 := by omega
      rw [loop_pass hlast (Nat.le_refl _) fun k hlo hhi => ?_, loop_finish (Nat.le_refl _)]
      · simp [blockCommentLength, Text.find?, Text.findWhere?, Text.findWhereFrom?, Text.startsWith,
          Text.stripStart?]
      · have hhigh : 128 ≤ c.toNat := Nat.le_of_not_lt fun hc => by
          have := h.offset_succ_of_lt hc
          omega
        obtain ⟨u, hu, hk⟩ := h.byteAt_high hhigh hlo (by omega)
        exact blockStep_high k u hk hu
    | cons d s =>
      have hnext : offset text (n + 1) < offset text e := offset_lt_iff.2 h.tail.lt
      have hlt := offset_lt_succ text n
      have hread : blockStep text () (offset text n) =
          .ok (if c = '*' ∧ d = '/' then .done (offset text n + 2)
            else .next () (offset text n + 1)) := by
        by_cases hc : c = '*'
        · subst hc
          simp [blockStep, h.byteAt_lead, h.offset_succ_of_lt, h.tail.byteAt_lead, lead_eq_iff]
        · simp [blockStep, h.byteAt_lead, lead_eq_iff, hc]
      simp only [List.head?_cons, Option.some.injEq]
      split at hread
      · next hcd =>
        rw [loop_done (by omega) hread, if_pos hcd]
        obtain ⟨rfl, rfl⟩ := hcd
        have h₁ := h.offset_succ_of_lt (by decide)
        have h₂ := h.tail.offset_succ_of_lt (by decide)
        rw [← h₂, ← h₁]
      · next hcd =>
        rw [loop_next (by omega) hread (Nat.lt_succ_self _),
          h.loop_succ_of_le (by omega) fun _ => blockStep_high, ih h.tail, if_neg hcd]
        congr 2
        omega

/-- A comment ends at the same place on both sides. -/
theorem commentEnd?_eq (h : Span text n e s) :
    commentEnd? text (offset text n) (offset text e) =
      .ok ((commentLength? s).map fun k => offset text (n + k)) := by
  have hlen := h.stop_eq
  match s with
  | [] =>
    obtain rfl : e = n := hlen
    rw [commentEnd?, if_pos (Nat.le_succ _)]
    rfl
  | [c] =>
    obtain rfl : e = n + 1 := hlen
    have hnone : commentLength? [c] = none := by
      unfold commentLength?
      split <;> simp_all
    rw [hnone, commentEnd?]
    split
    · rfl
    · next hlt =>
      -- More than one byte is left, so the character is beyond ASCII.
      have hc : c ≠ '/' := by
        rintro rfl
        exact hlt (Nat.le_of_eq (h.offset_succ_of_lt (by decide)).symm)
      simp [h.byteAt_lead, lead_eq_iff, hc]
  | c :: d :: s =>
    have hnext : offset text (n + 1) < offset text e := offset_lt_iff.2 h.tail.lt
    have hlt := offset_lt_succ text n
    rw [commentEnd?, if_neg (by omega), h.byteAt_lead, ok_bind]
    by_cases hc : c = '/'
    · subst hc
      have hsucc := h.offset_succ_of_lt (by decide)
      simp only [lead_of_lt (c := '/') (by decide), hsucc, h.tail.byteAt_lead]
      by_cases hslash : d = '/'
      · subst hslash
        simp [lineCommentEnd_eq h, lead_of_lt (c := '/'), commentLength?]
      · by_cases hstar : d = '*'
        · subst hstar
          have hsucc' := h.tail.offset_succ_of_lt (by decide)
          have hbody := loop_blockStep h.tail.tail
          rw [← hsucc', ← hsucc, Nat.add_assoc n, Nat.add_assoc n, Nat.add_comm (1 + 1)] at hbody
          simp [blockCommentEnd, lead_of_lt, hbody, commentLength?]
        · simp [lead_eq_iff, hslash, hstar, commentLength?]
    · rw [commentLength?_eq_none hc]
      simp [lead_eq_iff, hc]

/-! ### Where an expression may start -/

/-- The last byte before `i` that is no separator, and its offset, not looking below `lo`. -/
def lastSignificant? (text : List Char) (lo i : Nat) : Checked (Option (Nat × Char)) := do
  let k ← passBack Text.isSpace text lo i
  if lo < k then
    let u ← byteAt text (k - 1)
    return some (k - 1, u)
  else return none

/-- Whether an expression may start at `i` after the code from `lo` on. -/
def mayStart (text : List Char) (lo i : Nat) : Checked Bool := do
  match ← lastSignificant? text lo i with
  | none => return true
  | some (k, u) =>
    if isIdentChar u then
      let start ← passBack isIdentChar text lo k
      let word ← byteSlice text start (k + 1)
      return expressionKeywords.contains word
    else return !([')', ']', '.', '\'', '"', '`'].contains u)

/-- What is left of the code before a place when the last characters of a class are taken away. -/
theorem Span.dropWhile {before : List Char} (h : Span text f n before.reverse) (p : Char → Bool) :
    Span text f (n - (before.takeWhile p).length) (before.dropWhile p).reverse ∧
      Span text (n - (before.takeWhile p).length) n (before.takeWhile p).reverse := by
  have hlen : n = f + before.length := by simpa using h.stop_eq
  have hsum := congrArg List.length (List.takeWhile_append_dropWhile (p := p) (l := before))
  rw [List.length_append] at hsum
  have hplace : n - (before.takeWhile p).length = f + (before.dropWhile p).reverse.length := by
    rw [List.length_reverse]
    omega
  rw [← List.takeWhile_append_dropWhile (p := p) (l := before), List.reverse_append] at h
  rw [hplace]
  exact h.split

private theorem lastSignificant?_eq {before : List Char} (h : Span text f n before.reverse) :
    lastSignificant? text (offset text f) (offset text n) =
      .ok ((skipSpace before).head?.map fun c =>
        (offset text (n - spaceLength before) - 1, trail c)) := by
  have hrest := (h.dropWhile Text.isSpace).1
  rw [lastSignificant?, passBack_eq asciiOnly_isSpace h, ok_bind, spaceLength, skipSpace]
  cases hr : before.dropWhile Text.isSpace with
  | nil =>
    rw [hr] at hrest
    rw [if_neg]
    · rfl
    · simp [hrest.stop_eq]
  | cons c r =>
    rw [hr, List.reverse_cons] at hrest
    obtain ⟨m, hm, hr', hc⟩ := hrest.unsnoc
    have hlt : f < m + 1 := by
      rw [hr'.stop_eq]
      omega
    rw [hm, if_pos (offset_lt_iff.2 hlt), hc.byteAt_trail]
    rfl

/-- An ASCII text is recognized by its bytes. -/
theorem bytes_eq_iff {w t : List Char} (ht : ∀ c ∈ t, c.toNat < 128) : bytes w = t ↔ w = t := by
  induction t generalizing w with
  | nil =>
    cases w with
    | nil => simp [bytes]
    | cons c w => simp [units_ne_nil]
  | cons x t ih =>
    obtain ⟨hx, ht⟩ := List.forall_mem_cons.1 ht
    cases w with
    | nil => simp [bytes]
    | cons c w =>
      rw [List.cons.injEq, ← ih ht, ← lead_eq_iff hx, bytes_cons]
      constructor
      · intro hw
        rw [units_eq_cons, List.cons_append, List.cons.injEq] at hw
        have hc : c.toNat < 128 := by
          rw [(lead_eq_iff hx).1 hw.1]
          exact hx
        refine ⟨hw.1, ?_⟩
        simpa [units_of_lt hc] using hw.2
      · rintro ⟨hc, hw⟩
        obtain rfl := (lead_eq_iff hx).1 hc
        rw [units_of_lt hx, hw, List.singleton_append]

private theorem contains_bytes_iff {words : List (List Char)}
    (h : ∀ w ∈ words, ∀ c ∈ w, c.toNat < 128) (w : List Char) :
    words.contains (bytes w) = words.contains w := by
  rw [Bool.eq_iff_iff, List.contains_iff_mem, List.contains_iff_mem]
  constructor
  · intro hw
    rwa [(bytes_eq_iff (h _ hw)).1 rfl]
  · intro hw
    rwa [(bytes_eq_iff (h _ hw)).2 rfl]

/-- Whether an expression may begin is settled alike by the bytes before and by the characters
before. -/
theorem mayStart_eq {before : List Char} (h : Span text f n before.reverse) :
    mayStart text (offset text f) (offset text n) = .ok (expressionMayStart before) := by
  have hrest := (h.dropWhile Text.isSpace).1
  rw [mayStart, lastSignificant?_eq h, ok_bind, expressionMayStart, skipSpace, spaceLength]
  cases hr : before.dropWhile Text.isSpace with
  | nil => rfl
  | cons c r =>
    rw [hr] at hrest
    generalize n - (before.takeWhile Text.isSpace).length = m at hrest
    simp only [List.head?_cons, Option.map_some, asciiOnly_isIdentChar.trail]
    obtain ⟨last, hlast, hr', hspan⟩ := (List.reverse_cons ▸ hrest).unsnoc
    have hpos := offset_lt_succ text last
    by_cases hc : isIdentChar c = true
    · -- The word is looked for from before its last byte on, which belongs to it.
      have hback : passBack isIdentChar text (offset text f) (offset text m) =
          passBack isIdentChar text (offset text f) (offset text m - 1) := by
        subst hlast
        have hle : offset text f ≤ offset text last := by
          rw [offset_le_iff, hr'.stop_eq]
          exact Nat.le_add_right _ _
        refine passBack_pass (by omega) (Nat.sub_le _ _) fun k hlo hhi => ?_
        obtain rfl : k = offset text (last + 1) - 1 := by omega
        exact ⟨trail c, by rw [asciiOnly_isIdentChar.trail, hc], hspan.byteAt_trail⟩
      have hword := (hrest.dropWhile isIdentChar).2
      have hstop : offset text m - 1 + 1 = offset text m := by
        subst hlast
        omega
      have hall : expressionKeywords.all (·.all (·.toNat < 128)) = true := by decide
      have hkeywords : ∀ w ∈ expressionKeywords, ∀ x ∈ w, x.toNat < 128 := fun w hw =>
        forall_lt_of_all (List.all_eq_true.1 hall w hw)
      rw [if_pos hc, if_pos hc, ← hback, passBack_eq asciiOnly_isIdentChar hrest, ok_bind, hstop,
        hword.byteSlice_eq, ok_bind, pure_eq_ok, contains_bytes_iff hkeywords]
    · have hmem : [')', ']', '.', '\'', '"', '`'].contains (trail c) =
          [')', ']', '.', '\'', '"', '`'].contains c :=
        AsciiOnly.trail (asciiOnly_contains (forall_lt_of_all (by decide))) c
      rw [if_neg hc, if_neg hc, hmem]
      rfl

/-! ### Regular expression literals -/

def regexStep (text : List Char) (fallback bound : Nat) (inClass : Bool) (j : Nat) :
    Checked (Turn Bool Nat) := do
  let u ← byteAt text j
  if u = '\\' then return .next inClass (j + 2)
  else if u = '\n' then return .done fallback
  else if u = '[' then return .next true (j + 1)
  else if u = ']' then return .next false (j + 1)
  else if u = '/' && !inClass then return .done (← identEnd text (j + 1) bound)
  else return .next inClass (j + 1)

/-- The end of the regular expression whose opening slash is at `i`, or `i + 1` when it has none. -/
def regexBodyEnd (text : List Char) (i bound : Nat) : Checked Nat :=
  loop bound (regexStep text (i + 1) bound) (fun _ _ => i + 1) false (i + 1)

/-- The end of the regular expression literal at `i`, if the slash there opens one after the code
from `lo` on. -/
def regexEnd? (text : List Char) (lo i bound : Nat) : Checked (Option Nat) := do
  let u ← byteAt text i
  if u ≠ '/' || bound ≤ i + 1 then return none
  else
    let v ← byteAt text (i + 1)
    if v = '/' || v = '*' || v = '>' then return none
    else
      let last ← lastSignificant? text lo i
      if last.any (·.2 = '<') then return none
      else if !(← mayStart text lo i) then return none
      else
        let stop ← regexBodyEnd text i bound
        return if i + 1 < stop then some stop else none

private theorem regexStep_high (fallback bound : Nat) (k : Bool) (i : Nat) (u : Char)
    (hi : byteAt text i = .ok u) (hu : 128 ≤ u.toNat) :
    regexStep text fallback bound k i = .ok (.next k (i + 1)) := by
  have hne : ∀ x : Char, x.toNat < 128 → u ≠ x := fun x hx => ne_of_le hx hu
  simp [regexStep, hi, hne]

/-- The byte that ends a regular expression, flags included, when its closing slash is found after
`m` characters. -/
def regexStop (text : List Char) (fallback n : Nat) (s : List Char) (m? : Option Nat) : Nat :=
  (m?.map fun m => offset text (n + m + identLength (s.drop m))).getD fallback

private theorem regexStop_cons (fallback : Nat) (c : Char) (s : List Char) (m? : Option Nat) :
    regexStop text fallback n (c :: s) (m?.map (· + 1)) = regexStop text fallback (n + 1) s m? := by
  cases m? with
  | none => rfl
  | some m => simp [regexStop, Nat.add_assoc, Nat.add_comm 1]

private theorem loop_regexStep {fallback : Nat} {k : Bool} (h : Span text n e s) :
    loop (offset text e) (regexStep text fallback (offset text e)) (fun _ _ => fallback) k
        (offset text n) =
      .ok (regexStop text fallback n s (regexBodyLength? k s)) := by
  fun_induction regexBodyLength? k s generalizing n with
  | case1 k =>
    obtain rfl : e = n := h.stop_eq
    exact loop_finish (Nat.le_refl _)
  | case2 k =>
    have hlt : offset text n < offset text e := offset_lt_iff.2 h.lt
    have hstep : regexStep text fallback (offset text e) k (offset text n) =
        .ok (.next k (offset text n + 2)) := by
      simp [regexStep, h.byteAt_lead, lead_eq_iff]
    obtain rfl : e = n + 1 := h.stop_eq
    have hend := h.offset_succ_of_lt (by decide)
    rw [loop_next hlt hstep (by omega), loop_finish (by omega)]
    rfl
  | case3 k c s ih =>
    have hlt : offset text n < offset text e := offset_lt_iff.2 h.lt
    have hstep : regexStep text fallback (offset text e) k (offset text n) =
        .ok (.next k (offset text n + 2)) := by
      simp [regexStep, h.byteAt_lead, lead_eq_iff]
    have hnext := h.offset_succ_of_lt (by decide)
    -- The jump of two bytes lands inside the escaped character when that is a longer one; the turns
    -- that follow pass its other bytes.
    rw [loop_next hlt hstep (by omega), show offset text n + 2 = offset text (n + 1) + 1 by omega,
      h.tail.loop_succ fun _ => regexStep_high _ _ _, ih h.tail.tail, ← regexStop_cons,
      ← regexStop_cons, Option.map_map]
    rfl
  | case4 k s hlone hpair =>
    refine loop_done (offset_lt_iff.2 h.lt) ?_
    simp [regexStep, h.byteAt_lead, lead_eq_iff, regexStop]
  | case5 k s hlone hpair hline ih =>
    have hstep : regexStep text fallback (offset text e) k (offset text n) =
        .ok (.next true (offset text n + 1)) := by
      simp [regexStep, h.byteAt_lead, lead_eq_iff]
    rw [loop_next (offset_lt_iff.2 h.lt) hstep (Nat.lt_succ_self _),
      h.offset_succ_of_lt (by decide), ih h.tail, regexStop_cons]
  | case6 k s hlone hpair hline hopen ih =>
    have hstep : regexStep text fallback (offset text e) k (offset text n) =
        .ok (.next false (offset text n + 1)) := by
      simp [regexStep, h.byteAt_lead, lead_eq_iff]
    rw [loop_next (offset_lt_iff.2 h.lt) hstep (Nat.lt_succ_self _),
      h.offset_succ_of_lt (by decide), ih h.tail, regexStop_cons]
  | case7 k c s hlone hpair hline hopen hclose hslash =>
    obtain ⟨rfl, hk⟩ : c = '/' ∧ k = false := by simpa using hslash
    have hident := identEnd_eq h.tail
    rw [← h.offset_succ_of_lt (by decide)] at hident
    refine loop_done (offset_lt_iff.2 h.lt) ?_
    simp [regexStep, h.byteAt_lead, lead_eq_iff, hk, hident, regexStop]
  | case8 k c s hlone hpair hline hopen hclose hslash ih =>
    have hstep : regexStep text fallback (offset text e) k (offset text n) =
        .ok (.next k (offset text n + 1)) := by
      have hesc := ne_of_not_escape hlone hpair
      have hslash' : ¬ (c = '/' ∧ k = false) := by simpa using hslash
      simp [regexStep, h.byteAt_lead, lead_eq_iff, hesc, hline, hopen, hclose, hslash']
    rw [loop_next (offset_lt_iff.2 h.lt) hstep (Nat.lt_succ_self _),
      h.loop_succ fun _ => regexStep_high _ _ _, ih h.tail, regexStop_cons]

/-- A regular expression does not end before it begins. -/
theorem regexBodyLength?_pos {k : Bool} {m : Nat} (h : regexBodyLength? k s = some m) : 0 < m := by
  fun_induction regexBodyLength? k s <;> grind [Option.map_eq_some_iff]

/-- **Regular expressions** are recognized alike, and end at the same place on both sides. -/
theorem regexEnd?_eq {before : List Char} (hbefore : Span text f n before.reverse)
    (h : Span text n e (c :: s)) :
    regexEnd? text (offset text f) (offset text n) (offset text e) =
      .ok ((regexLength? before (c :: s)).map fun k => offset text (n + k)) := by
  rw [regexEnd?, h.byteAt_lead, ok_bind]
  by_cases hc : c = '/'
  · subst hc
    have hsucc := h.offset_succ_of_lt (by decide)
    cases s with
    | nil =>
      obtain rfl : e = n + 1 := h.stop_eq
      simp [hsucc, regexLength?]
    | cons d s =>
      have hnext : ¬ offset text e ≤ offset text (n + 1) := by
        rw [offset_le_iff]
        exact Nat.not_le_of_lt h.tail.lt
      have hlead : (lead d = '/' || lead d = '*' || lead d = '>') =
          (d = '/' || d = '*' || d = '>' : Bool) := by
        simp [lead_eq_iff]
      have hlast : ((skipSpace before).head?.map fun c =>
          (offset text (n - spaceLength before) - 1, trail c)).any (·.2 = '<') =
            decide ((skipSpace before).head? = some '<') := by
        cases (skipSpace before).head? <;> simp [trail_eq_iff]
      -- The characters on both sides of the slash say whether it may open one.
      simp only [lead_of_lt (c := '/') (by decide), hsucc, hnext, h.tail.byteAt_lead, ok_bind,
        lastSignificant?_eq hbefore, mayStart_eq hbefore, hlead, hlast, regexBodyEnd,
        loop_regexStep h.tail, regexLength?]
      by_cases hd : (d = '/' || d = '*' || d = '>' : Bool) = true
      · simp [hd]
      · by_cases hprev : (skipSpace before).head? = some '<'
        · simp [hd, hprev]
        · cases hmay : expressionMayStart before with
          | false => simp [hd, hprev]
          | true =>
            cases hbody : regexBodyLength? false (d :: s) with
            | none => simp [hd, hprev, regexStop]
            | some m =>
              have hpos := regexBodyLength?_pos hbody
              have hlt : 1 < m + 1 + identLength ((d :: s).drop m) := by omega
              have hplace : n + 1 + m + identLength ((d :: s).drop m) =
                  n + (m + 1 + identLength ((d :: s).drop m)) := by omega
              simp [hd, hprev, regexStop, hlt, hplace]
  · rw [regexLength?_eq_none hc]
    simp [lead_eq_iff, hc]

end ComponentAudit.Offset
