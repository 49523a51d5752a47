import ComponentAudit.Proofs.Offset.Attribute
import ComponentAudit.Proofs.Text.Search
import ComponentAudit.Site.Markup

/-!
# Searches by byte offsets

A search in what is left of a text gives the number of bytes before the match. The end of a `script`
or `style` body is looked for byte by byte, in whatever case it is written; a match cannot begin
inside a character, because the word is ASCII (`findWord?_eq`).
-/

namespace ComponentAudit.Offset

variable {text s word : List Char} {n e : Nat}

/-! ### Characters and comments -/

/-- The number of bytes before the character at which a search has stopped. -/
def bytesBefore (s : List Char) (k? : Option Nat) : Option Nat :=
  k?.map fun k => Text.byteSize (s.take k)

/-- The byte after the first `>` of the text at `i`, or the end of the text. -/
def afterGt (s : List Char) (i bound : Nat) : Nat :=
  match bytesBefore s (Text.findChar? '>' s) with
  | some k => i + k + 1
  | none => bound

/-- The place behind the next `>` is the same on both sides. -/
theorem afterGt_eq (h : Span text n e s) :
    afterGt s (offset text n) (offset text e) = offset text (n + lengthThrough '>' s) := by
  rw [afterGt, lengthThrough, bytesBefore]
  cases hk : Text.findChar? '>' s with
  | none => exact congrArg (offset text) h.stop_eq
  | some k =>
    have hle := Nat.le_of_lt (findChar?_lt hk)
    obtain ⟨t, ht⟩ := getElem?_of_findChar? hk
    have hgt := h.drop hle
    rw [ht] at hgt
    dsimp only [Option.map_some]
    rw [← (h.take hle).offset_stop, hgt.offset_succ_of_lt (by decide), Nat.add_assoc]

/-- What is found stands where it is found. -/
theorem le_and_of_findWhere? {p : List Char → Bool} {k : Nat}
    (h : Text.findWhere? p s = some k) : k ≤ s.length ∧ p (s.drop k) = true := by
  induction s generalizing k with
  | nil =>
    rw [Text.findWhere?, Text.findWhereFrom?] at h
    split at h
    · next hp =>
      cases h
      exact ⟨Nat.le_refl _, hp⟩
    · cases h
  | cons c s ih =>
    rw [Text.findWhere?_cons] at h
    split at h
    · next hp =>
      cases h
      exact ⟨Nat.zero_le _, hp⟩
    · obtain ⟨k, hk, rfl⟩ := Option.map_eq_some_iff.1 h
      exact ⟨Nat.succ_le_succ (ih hk).1, (ih hk).2⟩

/-- The end of the comment that `s` is the body of. -/
theorem commentStop_eq (h : Span text n e ('<' :: '!' :: s)) :
    (match bytesBefore ('<' :: '!' :: s) (Text.find? "-->".toList ('<' :: '!' :: s)) with
      | some k => offset text n + k + 3
      | none => offset text e) =
      offset text (match Text.find? "-->".toList s with
        | some k => n + 2 + k + 3
        | none => n + 2 + s.length) := by
  have hshift : Text.find? "-->".toList ('<' :: '!' :: s) =
      (Text.find? "-->".toList s).map (· + 2) := by
    rw [Text.find?, Text.findWhere?_cons, Text.findWhere?_cons]
    simp [Text.startsWith, Text.stripStart?, Text.find?, Function.comp_def]
  rw [hshift]
  cases hk : Text.find? "-->".toList s with
  | none => exact congrArg (offset text) h.tail.tail.stop_eq
  | some k =>
    obtain ⟨hle, hstart⟩ := le_and_of_findWhere? hk
    obtain ⟨t, ht⟩ := Text.startsWith_iff_isPrefix.1 hstart
    have hclose := h.tail.tail.drop hle
    rw [← ht] at hclose
    have hbefore := (h.take (k := k + 2) (Nat.succ_le_succ (Nat.succ_le_succ hle))).offset_stop
    have hstop : offset text (n + (k + 2) + 3) = offset text (n + (k + 2)) + 3 := by
      rw [show n + (k + 2) = n + 1 + 1 + k by omega]
      exact hclose.split.1.offset_stop
    show offset text n + Text.byteSize (('<' :: '!' :: s).take (k + 2)) + 3 =
      offset text (n + 2 + k + 3)
    rw [← hbefore, ← hstop]
    congr 1
    omega

/-! ### Words in whatever case -/

/-- The text begins with the word, in whatever case. -/
def begins (word s : List Char) : Bool := Text.equalIgnoringCase (s.take word.length) word

/-- Looks for the word in the bytes `hay` from the byte `k` on. -/
def searchFrom (word hay : List Char) (k : Nat) : Checked (Option Nat) :=
  if k + word.length ≤ hay.length then do
    let here ← part hay k (k + word.length)
    if Text.equalIgnoringCase here word then return some k else searchFrom word hay (k + 1)
  else return none
termination_by hay.length + 1 - k

/-- The offset of the first occurrence of the word, in whatever case, between two offsets. -/
def findWord? (text word : List Char) (i bound : Nat) : Checked (Option Nat) := do
  let hay ← byteSlice text i bound
  let k? ← searchFrom word hay 0
  return k?.map (i + ·)

private theorem lowerAscii_of_le {u : Char} (h : 128 ≤ u.toNat) : Text.lowerAscii u = u := by
  refine if_neg fun hu => ?_
  have hle : u.toNat ≤ 'Z'.toNat := hu.2
  have hz : 'Z'.toNat = 90 := rfl
  omega

private theorem lowerAscii_lt {u : Char} (h : u.toNat < 128) : (Text.lowerAscii u).toNat < 128 := by
  rw [Text.lowerAscii]
  split
  · next hu =>
    have hle : u.toNat ≤ 90 := hu.2
    have hvalid : (u.toNat + 32).isValidChar := Or.inl (by omega)
    rw [Char.ofNat, dif_pos hvalid]
    show u.toNat + 32 < 128
    omega
  · exact h

private theorem begins_cons_cons (a c : Char) (word s : List Char) :
    begins (a :: word) (c :: s) =
      (decide (Text.lowerAscii c = Text.lowerAscii a) && begins word s) := by
  simp [begins, Text.equalIgnoringCase]

private theorem begins_nil (hne : word ≠ []) : begins word [] = false := by
  cases word with
  | nil => exact absurd rfl hne
  | cons a word => simp [begins, Text.equalIgnoringCase]

private theorem begins_of_le {u : Char} (hne : word ≠ []) (hword : ∀ a ∈ word, a.toNat < 128)
    (hu : 128 ≤ u.toNat) (s : List Char) : begins word (u :: s) = false := by
  cases word with
  | nil => exact absurd rfl hne
  | cons a word =>
    have ha := lowerAscii_lt (hword a List.mem_cons_self)
    have hlower : Text.lowerAscii u ≠ Text.lowerAscii a := by
      rw [lowerAscii_of_le hu]
      exact ne_of_le ha hu
    simp [begins_cons_cons, hlower]

/-- An ASCII word is recognized by its bytes, in whatever case. -/
theorem begins_bytes (hword : ∀ a ∈ word, a.toNat < 128) (s : List Char) :
    begins word (bytes s) = begins word s := by
  induction word generalizing s with
  | nil => simp [begins, Text.equalIgnoringCase]
  | cons a word ih =>
    cases s with
    | nil => rfl
    | cons c s =>
      by_cases hc : c.toNat < 128
      · rw [bytes_cons, units_of_lt hc, List.singleton_append, begins_cons_cons, begins_cons_cons,
          ih fun x hx => hword x (List.mem_cons_of_mem a hx)]
      · have hle : 128 ≤ c.toNat := Nat.le_of_not_lt hc
        rw [bytes_cons, units_eq_cons, List.cons_append,
          begins_of_le (List.cons_ne_nil a word) hword (le_lead hle),
          begins_of_le (List.cons_ne_nil a word) hword hle]

private theorem findWhere?_high (hne : word ≠ []) (hword : ∀ a ∈ word, a.toNat < 128)
    {us : List Char} (hus : ∀ u ∈ us, 128 ≤ u.toNat) (t : List Char) :
    Text.findWhere? (begins word) (us ++ t) =
      (Text.findWhere? (begins word) t).map (· + us.length) := by
  induction us with
  | nil => simp
  | cons u us ih =>
    obtain ⟨hu, hus⟩ := List.forall_mem_cons.1 hus
    rw [List.cons_append, Text.findWhere?_cons, begins_of_le hne hword hu, ih hus]
    simp [Function.comp_def, Nat.add_assoc]

private theorem findWhere?_bytes (hne : word ≠ []) (hword : ∀ a ∈ word, a.toNat < 128)
    (s : List Char) :
    Text.findWhere? (begins word) (bytes s) =
      bytesBefore s (Text.findWhere? (begins word) s) := by
  rw [bytesBefore]
  induction s with
  | nil =>
    rw [show bytes [] = [] from rfl]
    simp [Text.findWhere?, Text.findWhereFrom?, begins_nil hne]
  | cons c s ih =>
    have hbegins := begins_bytes hword (c :: s)
    by_cases hc : c.toNat < 128
    · rw [bytes_cons, units_of_lt hc, List.singleton_append] at hbegins ⊢
      rw [Text.findWhere?_cons, Text.findWhere?_cons, hbegins, ih]
      split
      · rfl
      · simp [Function.comp_def, utf8Size_of_lt hc, Nat.add_comm]
    · have hle : 128 ≤ c.toNat := Nat.le_of_not_lt hc
      rw [bytes_cons, findWhere?_high hne hword fun u hu => le_of_mem_units hle hu, ih,
        Text.findWhere?_cons, begins_of_le hne hword hle]
      simp [Function.comp_def, length_units, Nat.add_comm]

private theorem begins_short (h : s.length < word.length) : begins word s = false := by
  refine Bool.eq_false_iff.2 fun hs => ?_
  have hlen := congrArg List.length (of_decide_eq_true hs)
  simp only [List.length_map, List.length_take] at hlen
  omega

private theorem findWhere?_short (h : s.length < word.length) :
    Text.findWhere? (begins word) s = none := by
  induction s with
  | nil => simp [Text.findWhere?, Text.findWhereFrom?, begins_short h]
  | cons c s ih =>
    rw [Text.findWhere?_cons, begins_short h, ih (Nat.lt_of_succ_lt h)]
    rfl

/-- A search from some offset on finds what a search of the rest finds. -/
theorem searchFrom_eq (hne : word ≠ []) (hay : List Char) {k : Nat} (hk : k ≤ hay.length) :
    searchFrom word hay k =
      .ok ((Text.findWhere? (begins word) (hay.drop k)).map (· + k)) := by
  have hpos : 0 < word.length := List.length_pos_iff.2 hne
  -- On what is left to search. The word fits nowhere once that is shorter.
  induction hm : hay.length - k generalizing k with
  | zero =>
    have hshort : (hay.drop k).length < word.length := by
      rw [List.length_drop]
      omega
    rw [searchFrom, if_neg (by omega), findWhere?_short hshort]
    rfl
  | succ m ih =>
    rw [searchFrom]
    split
    · next hle =>
      obtain ⟨u, t, ht⟩ : ∃ u t, hay.drop k = u :: t := by
        refine List.exists_cons_of_ne_nil fun hnil => ?_
        have := congrArg List.length hnil
        simp at this
        omega
      have hnext : hay.drop (k + 1) = t := by
        rw [← List.drop_drop, ht]
        rfl
      have hpart : part hay k (k + word.length) = .ok ((hay.drop k).take word.length) := by
        rw [part, if_pos ⟨Nat.le_add_right _ _, hle⟩, ← List.take_drop]
      rw [hpart, ok_bind, ht, Text.findWhere?_cons, ih (by omega) (by omega), hnext]
      show (if begins word (u :: t) = true then _ else _) = _
      split
      · simp
      · rw [Option.map_map]
        congr 2
        funext m
        exact (Nat.add_right_comm m 1 k).symm
    · next hle =>
      have hshort : (hay.drop k).length < word.length := by
        rw [List.length_drop]
        omega
      rw [findWhere?_short hshort]
      rfl

/-- The end of a body, looked for by bytes and by characters. -/
theorem findWord?_eq (hne : word ≠ []) (hword : ∀ a ∈ word, a.toNat < 128) (h : Span text n e s) :
    (do return (← findWord? text word (offset text n) (offset text e)).getD (offset text e)) =
      .ok (offset text (n + lengthBefore word s)) := by
  rw [findWord?, h.byteSlice_eq, ok_bind, searchFrom_eq hne _ (Nat.zero_le _), List.drop_zero,
    findWhere?_bytes hne hword, lengthBefore, bytesBefore]
  show _ = Except.ok (offset text (n + (Text.findWhere? (begins word) s).getD s.length))
  cases hk : Text.findWhere? (begins word) s with
  | none => simp [h.stop_eq]
  | some k => simp [(h.take (le_and_of_findWhere? hk).1).offset_stop]

/-- What comes before the word is within the text. -/
theorem lengthBefore_le (word s : List Char) : lengthBefore word s ≤ s.length := by
  rw [lengthBefore]
  cases hk : Text.findWhere? (fun t => Text.equalIgnoringCase (t.take word.length) word) s with
  | none => exact Nat.le_refl _
  | some k => exact (le_and_of_findWhere? hk).1

end ComponentAudit.Offset
