import ComponentAudit.Proofs.Offset.Expression
import ComponentAudit.Proofs.Written.Quoted

/-!
# Literals that end inside a character

The one cut that may fail takes the quotes off a string literal. It drops the last byte of the
expression, which is the closing quote when there is one. An unterminated literal has none, and then
that byte may be a part of a character.

`CutsCharacter` describes such an expression by its bytes alone, and `classify_eq_error_iff` says
that these are exactly the expressions whose classification halts.
-/

namespace ComponentAudit.Offset

open Script

variable {quote c : Char} {s e us : List Char}

/-! ### Unterminated strings -/

/-- No line feed and no closing quote stands among the bytes, unless a backslash takes it along. -/
inductive RunsOut (quote : Char) : List Char → Prop
  | nil : RunsOut quote []
  | backslash : RunsOut quote ['\\']
  | escape (u : Char) {us : List Char} : RunsOut quote us → RunsOut quote ('\\' :: u :: us)
  | plain {u : Char} {us : List Char} : u ≠ '\\' → u ≠ '\n' → u ≠ quote → RunsOut quote us →
      RunsOut quote (u :: us)

/-- The bytes begin with a quote, at least one more follows, the string does not end before they do,
and the last one continues a character. -/
def CutsCharacter (us : List Char) : Prop :=
  ∃ quote rest last, us = quote :: (rest ++ [last]) ∧ (quote = '\'' ∨ quote = '"') ∧
    RunsOut quote (rest ++ [last]) ∧ 0x80 ≤ last.toNat ∧ last.toNat < 0xC0

theorem runsOut_escape_iff {u : Char} : RunsOut quote ('\\' :: u :: us) ↔ RunsOut quote us := by
  refine ⟨fun h => ?_, .escape u⟩
  cases h with
  | escape _ h => exact h
  | plain hne => exact absurd rfl hne

/-- A text runs out if its first character neither ends nor escapes anything and the rest runs out.
-/
theorem runsOut_cons_iff {u : Char} (hu : u ≠ '\\') :
    RunsOut quote (u :: us) ↔ u ≠ '\n' ∧ u ≠ quote ∧ RunsOut quote us := by
  refine ⟨fun h => ?_, fun ⟨hline, hquote, h⟩ => .plain hu hline hquote h⟩
  cases h with
  | backslash => exact absurd rfl hu
  | escape => exact absurd rfl hu
  | plain _ hline hquote h => exact ⟨hline, hquote, h⟩

/-- Bytes beyond ASCII do not end a string. -/
theorem runsOut_append_iff (hquote : quote.toNat < 128) (hus : ∀ u ∈ us, 128 ≤ u.toNat)
    (vs : List Char) : RunsOut quote (us ++ vs) ↔ RunsOut quote vs := by
  induction us with
  | nil => rfl
  | cons u us ih =>
    obtain ⟨hu, hus⟩ := List.forall_mem_cons.1 hus
    rw [List.cons_append, runsOut_cons_iff (ne_of_le (by decide) hu), ih hus]
    simp [ne_of_le hquote hu, ne_of_le (x := '\n') (by decide) hu]

private theorem runsOut_units_iff (hquote : quote.toNat < 128) (hc : c ≠ '\\') :
    RunsOut quote (units c ++ us) ↔ c ≠ '\n' ∧ c ≠ quote ∧ RunsOut quote us := by
  by_cases hlt : c.toNat < 128
  · rw [units_of_lt hlt, List.singleton_append, runsOut_cons_iff hc]
  · have hle : 128 ≤ c.toNat := Nat.le_of_not_lt hlt
    rw [runsOut_append_iff hquote fun u hu => le_of_mem_units hle hu]
    simp [ne_of_le hquote hle, ne_of_le (x := '\n') (by decide) hle]

/-- After its first byte, nothing of a character ends a string. -/
theorem runsOut_tail_iff (hquote : quote.toNat < 128) :
    RunsOut quote ((units c).tail ++ us) ↔ RunsOut quote us := by
  by_cases hlt : c.toNat < 128
  · rw [units_of_lt hlt]
    rfl
  · exact runsOut_append_iff hquote
      (fun u hu => le_of_mem_units (Nat.le_of_not_lt hlt) (List.mem_of_mem_tail hu)) us

/-- A string runs out by its bytes as by its characters. -/
theorem runsOut_bytes_iff (hquote : quote.toNat < 128) (s : List Char) :
    RunsOut quote (bytes s) ↔ RunsOut quote s := by
  fun_induction quotedLength quote s with
  | case1 => rfl
  | case2 => rfl
  | case3 c s ih =>
    rw [bytes_cons, units_of_lt (by decide), List.singleton_append, bytes_cons, units_eq_cons,
      List.cons_append, runsOut_escape_iff, runsOut_escape_iff, runsOut_tail_iff hquote, ih]
  | case4 s hlone hescape =>
    rw [bytes_cons, runsOut_units_iff hquote (by decide), runsOut_cons_iff (by decide)]
    simp
  | case5 s hlone hescape hline =>
    have hc := ne_of_not_escape hlone hescape
    rw [bytes_cons, runsOut_units_iff hquote hc, runsOut_cons_iff hc]
    simp
  | case6 c s hlone hescape hline hne ih =>
    have hc := ne_of_not_escape hlone hescape
    rw [bytes_cons, runsOut_units_iff hquote hc, runsOut_cons_iff hc, ih]

/-- A literal that runs out reaches to the end of the text. -/
theorem RunsOut.quotedLength_eq (h : RunsOut quote s) : quotedLength quote s = s.length := by
  induction h with
  | nil => rfl
  | backslash => rfl
  | escape u _ ih => simp [quotedLength, ih]
  | plain hu hline hquote _ ih =>
    rw [quotedLength_cons hu, if_neg hline, if_neg hquote, ih, List.length_cons]

/-- A literal that takes all of the text is closed by its last character, or not at all. -/
theorem closed_or_runsOut (h : quotedLength quote s = s.length) :
    (∃ body, LiteralBody [quote, '\n'] body ∧ s = body ++ [quote]) ∨ RunsOut quote s := by
  fun_induction quotedLength quote s with
  | case1 => exact .inr .nil
  | case2 => exact .inr .backslash
  | case3 c s ih =>
    rcases ih (by simpa using h) with ⟨body, hbody, rfl⟩ | hruns
    · exact .inl ⟨'\\' :: c :: body, .escape c hbody, rfl⟩
    · exact .inr (.escape c hruns)
  | case4 s hlone hescape => cases h
  | case5 s hlone hescape hline =>
    obtain rfl : s = [] := List.eq_nil_of_length_eq_zero (by simpa using h)
    exact .inl ⟨[], .nil, rfl⟩
  | case6 c s hlone hescape hline hne ih =>
    have hc := ne_of_not_escape hlone hescape
    rcases ih (by simpa using h) with ⟨body, hbody, rfl⟩ | hruns
    · exact .inl ⟨c :: body, .plain hc (by simp [hline, hne]) hbody, rfl⟩
    · exact .inr (.plain hc hline hne hruns)

/-- A string that takes all of the text has its closing quote there, or none at all. -/
theorem runsOut_of_quotedLength_eq (h : quotedLength quote s = s.length)
    (hlast : s.getLast? ≠ some quote) : RunsOut quote s := by
  rcases closed_or_runsOut h with ⟨body, -, rfl⟩ | hruns
  · exact absurd List.getLast?_concat hlast
  · exact hruns

/-! ### Strings that cannot be read -/

private theorem bytes_concat (s : List Char) (c : Char) :
    bytes (s ++ [c]) = (bytes s ++ (units c).dropLast) ++ [trail c] := by
  rw [bytes_append, List.append_assoc, trail, List.dropLast_concat_getLast]
  simp [bytes]

/-- **Literals that are cut inside a character.** These are the ones that run out and whose last
character is longer than a byte. -/
theorem readString_eq_unreadable_iff (e : List Char) :
    readString e = .unreadable ↔ ∃ quote rest last, e = quote :: (rest ++ [last]) ∧
      (quote = '\'' ∨ quote = '"') ∧ RunsOut quote (rest ++ [last]) ∧ last.utf8Size ≠ 1 := by
  constructor
  · intro h
    cases e with
    | nil => cases h
    | cons c s =>
      rw [readString] at h
      split at h
      · next hquote =>
        have hquote : c = '\'' ∨ c = '"' := by simpa using hquote
        rcases List.eq_nil_or_concat s with rfl | ⟨s, last, rfl⟩
        · cases h
        · rw [List.concat_eq_append] at h ⊢
          rw [List.getLast?_concat] at h
          dsimp only at h
          split at h
          · next hlen =>
            split at h
            · cases h
            · next hsize =>
              refine ⟨c, s, last, rfl, hquote, runsOut_of_quotedLength_eq hlen ?_, hsize⟩
              -- The closing quote is a single byte.
              rw [List.getLast?_concat, ne_eq, Option.some.injEq]
              rintro rfl
              exact hsize (utf8Size_of_lt (lt_of_isQuote hquote))
          · cases h
      · split at h
        · split at h
          · split at h <;> cases h
          · cases h
        · cases h
  · rintro ⟨quote, rest, last, rfl, hquote, hruns, hsize⟩
    have hquote : (decide (quote = '\'') || decide (quote = '"')) = true := by simpa using hquote
    rw [readString, if_pos hquote, List.getLast?_concat]
    simp only [hruns.quotedLength_eq, hsize, if_true, if_false]

/-- The condition on bytes is the one on characters. -/
theorem cutsCharacter_bytes_iff (e : List Char) :
    CutsCharacter (bytes e) ↔ readString e = .unreadable := by
  rw [readString_eq_unreadable_iff]
  constructor
  · rintro ⟨quote, rest, last, hbytes, hquote, hruns, hlast⟩
    have hlt := lt_of_isQuote hquote
    cases e with
    | nil => cases hbytes
    | cons c s =>
      rw [bytes_cons, units_eq_cons, List.cons_append, List.cons.injEq, lead_eq_iff hlt] at hbytes
      obtain ⟨rfl, hbytes⟩ := hbytes
      rw [units_of_lt hlt, List.tail_cons, List.nil_append] at hbytes
      rcases List.eq_nil_or_concat s with rfl | ⟨s, d, rfl⟩
      · simp [bytes] at hbytes
      · rw [List.concat_eq_append] at hbytes ⊢
        rw [← hbytes, runsOut_bytes_iff hlt] at hruns
        rw [bytes_concat] at hbytes
        obtain ⟨-, hd⟩ := List.append_inj' hbytes rfl
        obtain rfl : trail d = last := by simpa using hd
        exact ⟨c, s, d, rfl, hquote, hruns, trail_continues_iff.1 hlast⟩
  · rintro ⟨quote, rest, last, rfl, hquote, hruns, hsize⟩
    have hlt := lt_of_isQuote hquote
    have hbytes := bytes_concat rest last
    refine ⟨quote, bytes rest ++ (units last).dropLast, trail last, ?_, hquote, ?_,
      trail_continues_iff.2 hsize⟩
    · rw [bytes_cons, units_of_lt hlt, hbytes]
      rfl
    · rwa [← hbytes, runsOut_bytes_iff hlt]

/-! ### Classification -/

/-- There is no value exactly when a literal is cut inside a character. -/
theorem classifyBare_eq_none_iff (e : List Char) :
    Script.classifyBare e = none ↔ readString e = .unreadable := by
  constructor
  · intro h
    rw [Script.classifyBare] at h
    split at h
    · cases h
    · split at h
      · cases h
      · split at h
        · cases h
        · split at h
          · cases h
          · split at h
            · cases h
            · assumption
            · split at h <;> cases h
  · intro h
    rw [classifyBare_of_readString (by rw [h]; simp), h]

/-- The classification of an expression halts exactly if the expression, laid bare, is an
unterminated literal that ends inside a character. -/
theorem classify_eq_error_iff (e : List Char) (h : Halt) :
    classify e = .error h ↔ h = .splitLiteral ∧ CutsCharacter (bytes (bareExpression e)) := by
  rw [classify_eq, cutsCharacter_bytes_iff, ← classifyBare_eq_none_iff, Script.classify]
  cases Script.classifyBare (bareExpression e) <;> simp [ofOption, eq_comm]

end ComponentAudit.Offset
