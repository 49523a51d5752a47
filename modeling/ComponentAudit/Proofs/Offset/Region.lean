import ComponentAudit.Extraction
import ComponentAudit.Proofs.Offset.Token
import ComponentAudit.Proofs.Script.Regex

/-!
# Regular expressions in any bytes

The searches on byte offsets are compared elsewhere with those on characters, at the places where
characters begin. The search for a regular expression does not depend on that: it can be asked about
any byte of any region, and answers as the search on characters does when the bytes of the region
are taken for the characters (`regexEnd?_region`). All that is used of the bytes is that a region is
read from either end (`region_cons`, `region_snoc`).

So what is known of literals is known of their bytes. A literal keeps to its line unless a backslash
stands before the line feed, and there the search steps over the end of the line
(`regexEnd?_leaves_line_only_escaped`).
-/

namespace ComponentAudit.Offset

open Script

/-- The bytes of the text from the offset `i` up to the offset `j`. -/
def region (text : List Char) (i j : Nat) : List Char := ((bytes text).take j).drop i

section Region

variable {text s : List Char} {p : Char → Bool} {u : Char} {lo i j k bound : Nat}

private theorem region_of_le (h : j ≤ i) : region text i j = [] :=
  List.drop_eq_nil_of_le ((List.length_take_le _ _).trans h)

private theorem length_region (i : Nat) (h : j ≤ Text.byteSize text) :
    (region text i j).length = j - i := by
  rw [region, List.length_drop, List.length_take_of_le (by rwa [length_bytes])]

private theorem le_of_region_eq_nil (hj : j ≤ Text.byteSize text) (h : region text i j = []) :
    j ≤ i := by
  have hlength := length_region i hj
  rw [h] at hlength
  exact Nat.sub_eq_zero_iff_le.1 hlength.symm

/-- A region begins with the byte at its first offset. -/
theorem region_cons (hj : j ≤ Text.byteSize text) (h : region text i j = u :: s) :
    i < j ∧ byteAt text i = .ok u ∧ region text (i + 1) j = s := by
  have hij : i < j := Nat.lt_of_not_le fun hji => by
    rw [region_of_le hji] at h
    cases h
  have hi : i < (bytes text).length := by
    rw [length_bytes]
    exact Nat.lt_of_lt_of_le hij hj
  have hread := List.getElem?_eq_getElem hi
  rw [region, List.drop_eq_getElem?_toList_append, List.getElem?_take_of_lt hij, hread] at h
  obtain ⟨rfl, hrest⟩ := List.cons.inj h
  exact ⟨hij, by rw [byteAt, hread], hrest⟩

private theorem region_split (hk : k ≤ Text.byteSize text) {a b : List Char}
    (h : region text lo k = a ++ b) :
    region text lo (k - b.length) = a ∧ region text (k - b.length) k = b := by
  have hlength := length_region lo hk
  rw [h, List.length_append] at hlength
  constructor
  · calc region text lo (k - b.length)
      _ = (region text lo k).take a.length := by
        rw [region, region, List.drop_take, List.drop_take, List.take_take]
        congr 1
        omega
      _ = a := by rw [h, List.take_left]
  · by_cases hlo : lo ≤ k
    · calc region text (k - b.length) k
        _ = (region text lo k).drop a.length := by
          rw [region, region, List.drop_drop]
          congr 1
          omega
        _ = b := by rw [h, List.drop_left]
    · obtain rfl : b = [] := List.eq_nil_of_length_eq_zero (by omega)
      exact region_of_le (Nat.le_refl k)

/-- A region ends with the byte before its last offset. -/
theorem region_unsnoc (hk : k ≤ Text.byteSize text) (h : region text lo k = s ++ [u]) :
    ∃ j, k = j + 1 ∧ lo ≤ j ∧ byteAt text j = .ok u ∧ region text lo j = s := by
  have hlo : lo < k := Nat.lt_of_not_le fun hkl => by simp [region_of_le hkl] at h
  obtain ⟨j, rfl⟩ := Nat.exists_eq_add_one.2 (Nat.zero_lt_of_lt hlo)
  obtain ⟨hinit, hlast⟩ := region_split hk h
  exact ⟨j, rfl, Nat.le_of_lt_succ hlo, (region_cons hk hlast).2.1, hinit⟩

/-! ### Runs of a class -/

private theorem passWhile_region (hj : j ≤ Text.byteSize text) :
    passWhile p text i j = .ok (i + ((region text i j).takeWhile p).length) := by
  rw [passWhile]
  generalize hs : region text i j = s
  induction s generalizing i with
  | nil => exact loop_finish (le_of_region_eq_nil hj hs)
  | cons u s ih =>
    obtain ⟨hij, hread, hrest⟩ := region_cons hj hs
    by_cases hu : p u = true
    · have hstep : whileStep p text () i = .ok (.next () (i + 1)) := by simp [whileStep, hread, hu]
      rw [loop_next hij hstep (Nat.lt_succ_self i), ih hrest, List.takeWhile_cons_of_pos hu,
        List.length_cons, Nat.add_right_comm]
      rfl
    · have hstep : whileStep p text () i = .ok (.done i) := by simp [whileStep, hread, hu]
      rw [loop_done hij hstep, List.takeWhile_cons_of_neg hu]
      rfl

private theorem passBack_region (hk : k ≤ Text.byteSize text) :
    passBack p text lo k = .ok (k - ((region text lo k).reverse.takeWhile p).length) := by
  generalize hs : (region text lo k).reverse = s
  rw [List.reverse_eq_iff] at hs
  induction s generalizing k with
  | nil =>
    have hle : k ≤ lo := le_of_region_eq_nil hk hs
    cases k with
    | zero => rfl
    | succ k => rw [passBack, if_neg (Nat.not_lt_of_le hle)]; rfl
  | cons u s ih =>
    rw [List.reverse_cons] at hs
    obtain ⟨j, rfl, hlo, hread, hrest⟩ := region_unsnoc hk hs
    rw [passBack, if_pos (Nat.lt_succ_of_le hlo), hread, ok_bind]
    by_cases hu : p u = true
    · rw [if_pos hu, ih (Nat.le_of_succ_le hk) hrest, List.takeWhile_cons_of_pos hu,
        List.length_cons, Nat.add_sub_add_right]
    · rw [if_neg hu, List.takeWhile_cons_of_neg hu]
      rfl

/-! ### Where an expression may start -/

/-- A region that is split where the bytes of a class at its end begin. -/
theorem region_dropWhile (p : Char → Bool) (lo : Nat) (hk : k ≤ Text.byteSize text) :
    region text lo (k - ((region text lo k).reverse.takeWhile p).length) =
        ((region text lo k).reverse.dropWhile p).reverse ∧
      region text (k - ((region text lo k).reverse.takeWhile p).length) k =
        ((region text lo k).reverse.takeWhile p).reverse := by
  have hsplit : region text lo k = ((region text lo k).reverse.dropWhile p).reverse ++
      ((region text lo k).reverse.takeWhile p).reverse := by
    rw [← List.reverse_append, List.takeWhile_append_dropWhile, List.reverse_reverse]
  simpa using region_split hk hsplit

private theorem lastSignificant?_region (hi : i ≤ Text.byteSize text) :
    lastSignificant? text lo i = .ok ((skipSpace (region text lo i).reverse).head?.map fun c =>
      (i - spaceLength (region text lo i).reverse - 1, c)) := by
  obtain ⟨hrest, -⟩ := region_dropWhile Text.isSpace lo hi
  have hle : i - spaceLength (region text lo i).reverse ≤ Text.byteSize text :=
    (Nat.sub_le _ _).trans hi
  rw [lastSignificant?, passBack_region hi, ok_bind, ← spaceLength, skipSpace]
  rw [← spaceLength] at hrest
  cases hr : (region text lo i).reverse.dropWhile Text.isSpace with
  | nil =>
    rw [hr] at hrest
    rw [if_neg (Nat.not_lt_of_le (le_of_region_eq_nil hle hrest))]
    rfl
  | cons c r =>
    rw [hr, List.reverse_cons] at hrest
    obtain ⟨j, hj, hlo, hread, -⟩ := region_unsnoc hle hrest
    rw [hj, if_pos (Nat.lt_succ_of_le hlo), Nat.add_sub_cancel, hread]
    rfl

private theorem mayStart_region (hi : i ≤ Text.byteSize text) :
    mayStart text lo i = .ok (expressionMayStart (region text lo i).reverse) := by
  obtain ⟨hrest, -⟩ := region_dropWhile Text.isSpace lo hi
  have hle : i - spaceLength (region text lo i).reverse ≤ Text.byteSize text :=
    (Nat.sub_le _ _).trans hi
  rw [mayStart, lastSignificant?_region hi, ok_bind, expressionMayStart, skipSpace]
  rw [← spaceLength] at hrest
  cases hr : (region text lo i).reverse.dropWhile Text.isSpace with
  | nil => rfl
  | cons c r =>
    rw [hr] at hrest
    obtain ⟨j, hj, hlo, hread, -⟩ := region_unsnoc hle (List.reverse_cons ▸ hrest)
    simp only [List.head?_cons, Option.map_some, hj, Nat.add_sub_cancel]
    rw [hj] at hrest hle
    by_cases hc : isIdentChar c = true
    · have hback : passBack isIdentChar text lo j = passBack isIdentChar text lo (j + 1) := by
        rw [passBack, if_pos (Nat.lt_succ_of_le hlo), hread, ok_bind, if_pos hc]
      have hword := (region_dropWhile isIdentChar lo hle).2
      rw [hrest, List.reverse_reverse] at hword
      rw [if_pos hc, if_pos hc, hback, passBack_region hle, ok_bind, hrest, List.reverse_reverse,
        byteSlice, part, if_pos ⟨Nat.sub_le _ _, by rwa [length_bytes]⟩, ok_bind]
      exact congrArg (fun word => Except.ok (expressionKeywords.contains word)) hword
    · rw [if_neg hc, if_neg hc]
      rfl

/-! ### Regular expression literals -/

/-- The offset that ends a regular expression, flags included, when its closing slash is found in
the bytes from `i` on. -/
def closedAt (fallback i : Nat) (s : List Char) (m? : Option Nat) : Nat :=
  (m?.map fun m => i + m + identLength (s.drop m)).getD fallback

private theorem closedAt_cons (fallback i : Nat) (u : Char) (s : List Char) (m? : Option Nat) :
    closedAt fallback i (u :: s) (m?.map (· + 1)) = closedAt fallback (i + 1) s m? := by
  cases m? with
  | none => rfl
  | some m => simp [closedAt, Nat.add_assoc, Nat.add_comm 1]

private theorem loop_regexStep_region {fallback : Nat} {inClass : Bool}
    (hbound : bound ≤ Text.byteSize text) (hs : region text i bound = s) :
    loop bound (regexStep text fallback bound) (fun _ _ => fallback) inClass i =
      .ok (closedAt fallback i s (regexBodyLength? inClass s)) := by
  fun_induction regexBodyLength? inClass s generalizing i with
  | case1 => exact loop_finish (le_of_region_eq_nil hbound hs)
  -- A backslash as the last byte: the jump ends behind the region.
  | case2 k =>
    obtain ⟨hlt, hread, hrest⟩ := region_cons hbound hs
    have hend := le_of_region_eq_nil hbound hrest
    have hstep : regexStep text fallback bound k i = .ok (.next k (i + 2)) := by
      simp [regexStep, hread]
    rw [loop_next hlt hstep (by omega), loop_finish (by omega)]
    rfl
  | case3 k c s ih =>
    obtain ⟨hlt, hread, hrest⟩ := region_cons hbound hs
    have hstep : regexStep text fallback bound k i = .ok (.next k (i + 2)) := by
      simp [regexStep, hread]
    rw [loop_next hlt hstep (by omega), ih (region_cons hbound hrest).2.2, ← closedAt_cons _ _ c,
      ← closedAt_cons _ _ '\\', Option.map_map]
    rfl
  | case4 k s hlone hpair =>
    obtain ⟨hlt, hread, hrest⟩ := region_cons hbound hs
    refine loop_done hlt ?_
    simp [regexStep, hread, closedAt]
  | case5 k s hlone hpair hline ih =>
    obtain ⟨hlt, hread, hrest⟩ := region_cons hbound hs
    have hstep : regexStep text fallback bound k i = .ok (.next true (i + 1)) := by
      simp [regexStep, hread]
    rw [loop_next hlt hstep (Nat.lt_succ_self i), ih hrest, closedAt_cons]
  | case6 k s hlone hpair hline hopen ih =>
    obtain ⟨hlt, hread, hrest⟩ := region_cons hbound hs
    have hstep : regexStep text fallback bound k i = .ok (.next false (i + 1)) := by
      simp [regexStep, hread]
    rw [loop_next hlt hstep (Nat.lt_succ_self i), ih hrest, closedAt_cons]
  | case7 k c s hlone hpair hline hopen hclose hslash =>
    obtain ⟨hlt, hread, hrest⟩ := region_cons hbound hs
    obtain ⟨rfl, rfl⟩ : c = '/' ∧ k = false := by simpa using hslash
    have hident : identEnd text (i + 1) bound = .ok (i + 1 + identLength s) :=
      hrest ▸ passWhile_region hbound
    refine loop_done hlt ?_
    simp [regexStep, hread, hident, closedAt]
  | case8 k c s hlone hpair hline hopen hclose hslash ih =>
    obtain ⟨hlt, hread, hrest⟩ := region_cons hbound hs
    have hstep : regexStep text fallback bound k i = .ok (.next k (i + 1)) := by
      have hesc := ne_of_not_escape hlone hpair
      have hslash' : ¬ (c = '/' ∧ k = false) := by simpa using hslash
      simp [regexStep, hread, hesc, hline, hopen, hclose, hslash']
    rw [loop_next hlt hstep (Nat.lt_succ_self i), ih hrest, closedAt_cons]

/-- The search about a byte of a region answers as the search on characters does for the bytes of
the region. -/
theorem regexEnd?_region (hi : i < Text.byteSize text) (hbound : bound ≤ Text.byteSize text) :
    regexEnd? text lo i bound =
      .ok ((regexLength? (region text lo i).reverse (region text i bound)).map (i + ·)) := by
  have hbefore : i ≤ Text.byteSize text := Nat.le_of_lt hi
  cases hs : region text i bound with
  | nil =>
    -- There is a byte at `i`, but not in the region.
    obtain ⟨u, s, hu⟩ := List.exists_cons_of_ne_nil (l := region text i (Text.byteSize text))
      fun h => Nat.not_le_of_lt hi (le_of_region_eq_nil (Nat.le_refl _) h)
    have hend := le_of_region_eq_nil hbound hs
    simp [regexEnd?, (region_cons (Nat.le_refl _) hu).2.1, Nat.le_succ_of_le hend, regexLength?]
  | cons c s =>
    obtain ⟨hlt, hread, hrest⟩ := region_cons hbound hs
    by_cases hc : c = '/'
    · subst hc
      cases s with
      | nil =>
        simp [regexEnd?, hread, le_of_region_eq_nil hbound hrest, regexLength?]
      | cons d s =>
        obtain ⟨hnext, hread', -⟩ := region_cons hbound hrest
        have hlast : ((skipSpace (region text lo i).reverse).head?.map fun c =>
            (i - spaceLength (region text lo i).reverse - 1, c)).any (·.2 = '<') =
              decide ((skipSpace (region text lo i).reverse).head? = some '<') := by
          cases (skipSpace (region text lo i).reverse).head? <;> simp
        simp only [regexEnd?, hread, ok_bind, hread', Nat.not_le_of_lt hnext,
          lastSignificant?_region hbefore, mayStart_region hbefore, hlast, regexBodyEnd,
          loop_regexStep_region hbound hrest, regexLength?]
        by_cases hd : (d = '/' || d = '*' || d = '>' : Bool) = true
        · simp [hd]
        · by_cases hprev : (skipSpace (region text lo i).reverse).head? = some '<'
          · simp [hd, hprev]
          · cases hmay : expressionMayStart (region text lo i).reverse with
            | false => simp [hd, hprev]
            | true =>
              cases hbody : regexBodyLength? false (d :: s) with
              | none => simp [hd, hprev, closedAt]
              | some m =>
                have hpos := regexBodyLength?_pos hbody
                have hgt : 1 < m + 1 + identLength ((d :: s).drop m) := by omega
                have hplace : i + 1 + m + identLength ((d :: s).drop m) =
                    i + (m + 1 + identLength ((d :: s).drop m)) := by omega
                simp [hd, hprev, closedAt, hgt, hplace]
    · rw [regexLength?_eq_none hc]
      simp [regexEnd?, hread, hc]

end Region

/-! ### Literals and lines -/

/-- **A regular expression leaves its line only where a backslash stands before the line feed.** A
slash opens a literal of `n` bytes exactly if an expression may start there, a literal of this
length stands there, with unescaped slashes inside of character classes only, and no identifier goes
on behind its flags. The literal is one of a single line exactly if it has no line feed, and every
line feed in it stands right behind a backslash. A slash with a line feed before its closing slash,
not behind a backslash, is a division. On byte offsets the answer is the same about any byte of any
region. -/
theorem regex_leaves_line_only_escaped (before s : List Char) :
    (∀ n, regexLength? before s = some n ↔
      (skipSpace before).head? ≠ some '<' ∧ expressionMayStart before = true ∧ n ≤ s.length ∧
        RegexLiteral (RegexRun false false) (s.take n) ∧
        ∀ c ∈ (s.drop n).head?, isIdentChar c = false) ∧
    (∀ n, regexLength? before s = some n →
      s.head? = some '/' ∧ 1 < n ∧ EscapesNewlines (s.take n) ∧
        (RegexLiteral (RegexBody false) (s.take n) ↔ '\n' ∉ s.take n)) ∧
    (∀ k body rest, s = '/' :: (body ++ '\n' :: rest) → RegexRun false k body →
      regexLength? before s = none) ∧
    ∀ text lo i bound, i < Text.byteSize text → bound ≤ Text.byteSize text →
      (region text lo i).reverse = before → region text i bound = s →
      regexEnd? text lo i bound = .ok ((regexLength? before s).map (i + ·)) := by
  refine ⟨fun n => regexLength?_eq_some_iff, fun n h => ?_, ?_, ?_⟩
  · obtain ⟨-, -, hle, hliteral, -⟩ := regexLength?_eq_some_iff.1 h
    have hline := regexLiteral_regexBody_iff.trans (and_iff_right hliteral)
    obtain ⟨c, t, ht⟩ := hliteral.exists_cons
    refine ⟨?_, ?_, hliteral.escapesNewlines, hline⟩
    · rw [← List.take_append_drop n s, ht]
      rfl
    · rw [← List.length_take_of_le hle, ht]
      exact Nat.succ_lt_succ (Nat.succ_pos t.length)
  · rintro k body rest rfl hrun
    exact hrun.regexLength?_newline rest
  · rintro text lo i bound hi hbound rfl rfl
    exact regexEnd?_region hi hbound

/-- A literal with a slash in a class and an escaped one, and a division in front of a line feed. -/
theorem regex_leaves_line_only_escaped_class :
    let text := "x = /[/\x7d]a\\//gi;".toList
    let before := (region text 0 4).reverse
    let s := region text 4 (Text.byteSize text)
    regexLength? before s = some 11 ∧ s.take 11 = "/[/\x7d]a\\//gi".toList ∧
      EscapesNewlines (s.take 11) ∧ RegexLiteral (RegexBody false) (s.take 11) ∧
      4 < Text.byteSize text ∧ regexEnd? text 0 4 (Text.byteSize text) = .ok (some 15) ∧
      RegexRun false false ['a', 'b'] ∧ regexLength? before "/ab\ncd/".toList = none := by
  intro text before s
  have hlength : regexLength? before s = some 11 := by decide +kernel
  have hlt : 4 < Text.byteSize text := by decide +kernel
  have hrun : RegexRun false false ['a', 'b'] := .plain (by decide) (.plain (by decide) .nil)
  obtain ⟨-, hliteral, -, hbytes⟩ := regex_leaves_line_only_escaped before s
  obtain ⟨-, -, hdivision, -⟩ := regex_leaves_line_only_escaped before "/ab\ncd/".toList
  obtain ⟨-, -, hescapes, hline⟩ := hliteral 11 hlength
  refine ⟨hlength, by decide +kernel, hescapes, hline.2 (by decide +kernel), hlt, ?_, hrun,
    hdivision false ['a', 'b'] ['c', 'd', '/'] rfl hrun⟩
  rw [hbytes text 0 4 _ hlt (Nat.le_refl _) rfl rfl, hlength]
  rfl

/-- An escaped line feed in a string behind a division. The literal that the slash seems to open
runs to the slash of the tag on the next line. -/
theorem regex_of_escaped_newline :
    let text := "const n = i++ / \"a\\\nb\".length, v = <VaButton text=\"Go\" />;"
    regexEnd? text.toList 0 14 (Text.byteSize text.toList) = .ok (some 56) ∧
      regexLength? (region text.toList 0 14).reverse (text.toList.drop 14) = some 42 ∧
      '\n' ∈ region text.toList 14 56 ∧
      ComponentAudit.extract {} "a.jsx" text = .ok [] :=
  ⟨by decide +kernel, by decide +kernel, by decide +kernel, by decide +kernel⟩

end ComponentAudit.Offset
