import ComponentAudit.Proofs.Offset.Bracket
import ComponentAudit.Proofs.Script.ObjectLiteral

/-!
# Expressions by byte offsets

The values of expressions and the props of object literals, read by bytes. All cuts are in order
with one exception: the last byte of a quoted literal is taken off as its closing quote, whether it
is one or not. `classify_eq` says that this cut fails exactly where the expression has no value.
-/

namespace ComponentAudit.Offset

open Script

variable {e inner : List Char} {c : Char}

/-- The outcome of a reading that can only fail on a literal. -/
def ofOption {α : Type} : Option α → Checked α
  | some a => .ok a
  | none => .error .splitLiteral

/-! ### Enclosed texts -/

/-- Whether the whole text is one bracketed text that starts with `opener`. -/
def wrappedIn (e : List Char) (opener : Char) : Checked Bool :=
  if e = [] then return false
  else do
    let u ← byteAt e 0
    if u = opener then
      return (← closeOffset? e 0 (Text.byteSize e)) = some (Text.byteSize e - 1)
    else return false

/-- The text without its first and its last byte. -/
def inside (e : List Char) : Checked (List Char) := slice e 1 (Text.byteSize e - 1)

/-- Taking off the first and the last byte takes off two characters of one byte. -/
theorem inside_eq {s : List Char} {d : Char} (hc : c.utf8Size = 1) (hd : d.utf8Size = 1) :
    inside (c :: (s ++ [d])) = .ok s := by
  have h : Span (c :: (s ++ [d])) 1 (1 + s.length) s := ⟨[c], [d], rfl, rfl, rfl⟩
  have hstart : offset (c :: (s ++ [d])) 1 = 1 := by simp [offset, hc]
  have hstop := h.offset_stop
  have hslice := h.slice_eq
  rw [hstop, hstart] at hslice
  rw [inside, ← hslice]
  congr 1
  simp only [byteSize_cons, byteSize_append, byteSize_nil, hc, hd]
  omega

/-- A last character of several bytes cannot be cut. -/
theorem inside_eq_error {s : List Char} {d : Char} (hd : d.utf8Size ≠ 1) :
    inside (c :: (s ++ [d])) = .error .offBoundary := by
  have hcpos := c.utf8Size_pos
  have hdpos := d.utf8Size_pos
  have hsize : Text.byteSize (c :: (s ++ [d])) = c.utf8Size + Text.byteSize s + d.utf8Size := by
    simp [Nat.add_assoc]
  have hcut : cut? (Text.byteSize (c :: (s ++ [d])) - 1) (c :: (s ++ [d])) = none := by
    cases hcut : cut? (Text.byteSize (c :: (s ++ [d])) - 1) (c :: (s ++ [d])) with
    | none => rfl
    | some parts =>
      -- What is cut off would have to be one byte, and it ends with the last character.
      obtain ⟨a, b⟩ := parts
      obtain ⟨heq, hlen⟩ := cut?_eq_some hcut
      have hb : Text.byteSize b = 1 := by
        rw [heq, byteSize_append] at hlen hsize
        omega
      rcases List.eq_nil_or_concat b with rfl | ⟨b, d', rfl⟩
      · cases hb
      · rw [List.concat_eq_append] at heq hb
        have hlast := congrArg List.getLast? heq
        rw [← List.cons_append, List.getLast?_concat, ← List.append_assoc, List.getLast?_concat,
          Option.some.injEq] at hlast
        subst hlast
        simp only [byteSize_append, byteSize_cons, byteSize_nil] at hb
        omega
  rw [inside, slice, if_pos (by omega), hcut]
  rfl

private theorem byteAt_zero (c : Char) (s : List Char) : byteAt (c :: s) 0 = .ok (lead c) := by
  have h := (Span.whole (c :: s)).byteAt_lead
  rwa [offset_zero] at h

private theorem closeOffset?_whole (c : Char) (s : List Char) :
    closeOffset? (c :: s) 0 (Text.byteSize (c :: s)) =
      .ok ((closeLength? c s).map fun k => offset (c :: s) (1 + k)) := by
  have h := closeOffset?_eq (Span.whole (c :: s))
  rwa [offset_zero, offset_length, Nat.zero_add] at h

/-- The closing bracket is the last byte exactly if it is the last character. -/
theorem offset_closer_eq_iff {s : List Char} {k : Nat} (hk : closeLength? c s = some k) :
    offset (c :: s) (1 + k) = Text.byteSize (c :: s) - 1 ↔ k = s.length - 1 := by
  obtain ⟨hlt, hsucc⟩ := (Span.whole (c :: s)).offset_closer hk
  rw [Nat.zero_add] at hsucc
  have hpos : 0 < Text.byteSize (c :: s) := Nat.lt_of_lt_of_le c.utf8Size_pos (Nat.le_add_right _ _)
  have hlast :
      offset (c :: s) (1 + k) + 1 = Text.byteSize (c :: s) ↔ 1 + (k + 1) = s.length + 1 := by
    rw [hsucc, ← offset_length, offset_inj, List.length_cons]
  omega

/-- Whether brackets enclose an expression is settled alike on both sides. -/
theorem wrappedIn_eq {opener : Char} (ho : opener.toNat < 128) (e : List Char) :
    wrappedIn e opener = .ok (enclosed? opener e).isSome := by
  cases e with
  | nil => rfl
  | cons c s =>
    rw [wrappedIn, if_neg (List.cons_ne_nil c s), byteAt_zero, ok_bind, closeOffset?_whole, ok_bind]
    simp only [lead_eq_iff ho, enclosed?]
    by_cases hc : c = opener
    · cases hk : closeLength? c s with
      | none => simp [hc]
      | some k =>
        have hne : s ≠ [] := by
          rintro rfl
          exact Nat.not_lt_zero k ((Span.whole [c]).offset_closer hk).1
        simp only [Option.map_some, Option.some.injEq, offset_closer_eq_iff hk]
        by_cases hlast : k = s.length - 1 <;> simp [hc, hlast, hne]
    · simp [hc]

/-- What is between the brackets is what is left without the first and the last byte. -/
theorem inside_of_enclosed? {opener : Char} (h : enclosed? opener e = some inner) :
    inside e = .ok inner := by
  cases e with
  | nil => cases h
  | cons c s =>
    rw [enclosed?] at h
    split at h
    · next hcond =>
      simp only [Bool.and_eq_true, decide_eq_true_eq, Bool.not_eq_true',
        List.isEmpty_eq_false_iff] at hcond
      obtain ⟨⟨rfl, hk⟩, hne⟩ := hcond
      cases h
      obtain ⟨s, last, rfl⟩ := (List.eq_nil_or_concat s).resolve_left hne
      obtain ⟨hc, d, t, hdrop, hd⟩ := exists_closer_of_closeLength? hk
      rw [List.concat_eq_append] at hdrop ⊢
      simp only [List.length_append, List.length_singleton, Nat.add_sub_cancel,
        List.drop_left] at hdrop
      obtain ⟨rfl, -⟩ := List.cons.inj hdrop
      rw [List.dropLast_concat]
      exact inside_eq (utf8Size_of_lt hc) (utf8Size_of_lt hd)
    · cases h

/-! ### Strings -/

/-- The text of an expression that is exactly one string literal. -/
def stringLiteral? (e : List Char) : Checked (Option (List Char)) :=
  match (bytes e).head? with
  | none => return none
  | some u =>
    if u = '\'' || u = '"' then
      if 2 ≤ Text.byteSize e then do
        let stop ← stringEnd e 0 (Text.byteSize e)
        if stop = Text.byteSize e then
          match inside e with
          | .ok s => return some (unescape s)
          -- The one cut that may fall inside a character.
          | .error _ => .error .splitLiteral
        else return none
      else return none
    else if u = '`' then do
      if (← wrappedIn e '`') && !Text.contains ['$', '\x7b'] e then return some (← inside e)
      else return none
    else return none

/-- What a reading of an expression as a string comes to. -/
def ofReading : StringReading → Checked (Option (List Char))
  | .other => .ok none
  | .text s => .ok (some s)
  | .unreadable => .error .splitLiteral

/-- A lone string literal is read alike on both sides, and cut inside a character on both. -/
theorem stringLiteral?_eq (e : List Char) : stringLiteral? e = ofReading (readString e) := by
  cases e with
  | nil => rfl
  | cons c s =>
    have hhead : (bytes (c :: s)).head? = some (lead c) := by
      rw [bytes_cons, units_eq_cons]
      rfl
    rw [stringLiteral?, hhead, readString]
    dsimp only
    by_cases hquote : c = '\'' ∨ c = '"'
    · have hc := lt_of_isQuote hquote
      have hstop := stringEnd_eq (Span.whole (c :: s)) hquote
      rw [offset_zero, offset_length, Nat.zero_add] at hstop
      -- The string runs to the end of the text at the same time on both sides.
      have hrun : offset (c :: s) (1 + quotedLength c s) = Text.byteSize (c :: s) ↔
          quotedLength c s = s.length := by
        rw [← offset_length, offset_inj, List.length_cons]
        omega
      have hq : (decide (c = '\'') || decide (c = '"')) = true := by simpa using hquote
      simp only [lead_of_lt hc, hstop, ok_bind, hrun, if_pos hq]
      rcases List.eq_nil_or_concat s with rfl | ⟨s, last, rfl⟩
      · simp [utf8Size_of_lt hc, ofReading]
      · rw [List.concat_eq_append]
        have hcpos := c.utf8Size_pos
        have hlpos := last.utf8Size_pos
        have htwo : 2 ≤ Text.byteSize (c :: (s ++ [last])) := by
          simp only [byteSize_cons, byteSize_append, byteSize_nil]
          omega
        rw [if_pos htwo, List.getLast?_concat]
        by_cases hlen : quotedLength c (s ++ [last]) = (s ++ [last]).length
        -- The last byte is dropped, quote or not: that needs a character of one byte.
        · by_cases hsize : last.utf8Size = 1
          · simp only [hlen, hsize, inside_eq (utf8Size_of_lt hc) hsize, List.dropLast_concat,
              if_true]
            rfl
          · simp only [hlen, hsize, inside_eq_error hsize, if_true, if_false]
            rfl
        · simp only [hlen, if_false]
          rfl
    · have hq : ¬ (decide (c = '\'') || decide (c = '"')) = true := by simpa using hquote
      have hlead : ¬ (decide (lead c = '\'') || decide (lead c = '"')) = true := by
        simpa [lead_eq_iff] using hquote
      rw [if_neg hlead, if_neg hq]
      by_cases htick : c = '`'
      · subst htick
        rw [if_pos ((lead_eq_iff (by decide)).2 rfl), if_pos rfl, wrappedIn_eq (by decide), ok_bind]
        cases hin : enclosed? '`' ('`' :: s) with
        | none => rfl
        | some inner =>
          rw [inside_of_enclosed? hin]
          cases Text.contains ['$', '\x7b'] ('`' :: s) <;> rfl
      · rw [if_neg fun h => htick ((lead_eq_iff (by decide)).1 h), if_neg htick]
        rfl

/-! ### Classification -/

/-- The expression without the parentheses around the whole of it. -/
def unwrap (e : List Char) : Checked (List Char) :=
  match wrappedIn e '(' with
  | .error h => .error h
  | .ok false => .ok e
  | .ok true =>
    match inside e with
    | .error h => .error h
    | .ok inner =>
      let inner := Text.trim inner
      if inner.length < e.length then unwrap inner else .error .stalled
termination_by e.length

/-- The value of an expression that has been laid bare. -/
def classifyBare (e : List Char) : Checked PropValue :=
  if e = [] || e = "null".toList || e = "undefined".toList then return .unresolved
  else if e = "true".toList then return .bool true
  else if e = "false".toList then return .bool false
  else if isNumber e then return .literal (.number (String.ofList e))
  else do
    match ← stringLiteral? e with
    | some s => return .string (String.ofList s)
    | none => return if isMemberPath e then .reference (String.ofList e) else .unresolved

/-- What an attribute expression says about the value of its prop. -/
def classify (e : List Char) : Checked PropValue := do
  let e ← unwrap (Text.trim e)
  classifyBare (stripSuffix ['!'] (stripSuffix "as const".toList e))

private theorem unwrap_eq (e : List Char) : unwrap e = .ok (Script.unwrap e) := by
  fun_induction Script.unwrap e with
  | case1 e inner h ih =>
    have hlt := Nat.lt_of_le_of_lt (Text.length_trim_le inner) (length_enclosed?_lt h)
    rw [unwrap, wrappedIn_eq (by decide), h, inside_of_enclosed? h]
    simp only [Option.isSome_some, hlt, if_true, ih]
  | case2 e h =>
    rw [unwrap, wrappedIn_eq (by decide), h]
    rfl

private theorem classifyBare_eq (e : List Char) :
    classifyBare e = ofOption (Script.classifyBare e) := by
  rw [classifyBare, Script.classifyBare, stringLiteral?_eq]
  split
  · rfl
  · split
    · rfl
    · split
      · rfl
      · split
        · rfl
        · cases readString e with
          | text s => rfl
          | unreadable => rfl
          | other =>
            simp only [ofReading, ok_bind]
            split <;> rfl

/-- **Values of expressions.** An expression has the same value on both sides, and the same failure:
a literal that ends inside a character. -/
theorem classify_eq (e : List Char) : classify e = ofOption (Script.classify e) := by
  rw [classify, unwrap_eq, ok_bind, classifyBare_eq]
  rfl

/-! ### Object literals -/

/-- The text between the quotes of the string at `i`, and the end of the string. There is none
when the string is not closed. -/
def closedString? (text : List Char) (i bound : Nat) : Checked (Option (List Char × Nat)) := do
  let stop ← stringEnd text i bound
  if stop < i + 2 then return none
  else
    let last ← byteAt text (stop - 1)
    let quote ← byteAt text i
    if last ≠ quote then return none
    else return some (← slice text (i + 1) (stop - 1), stop)

/-- The key of an entry and the text after it. -/
def entryKey? (e : List Char) : Checked (Option (List Char × List Char)) := do
  let u ← byteAt e 0
  if u = '\'' || u = '"' then
    match ← closedString? e 0 (Text.byteSize e) with
    | none => return none
    | some (key, stop) => return some (unescape key, ← slice e stop (Text.byteSize e))
  else if isIdentChar u then
    let stop ← identEnd e 0 (Text.byteSize e)
    return some (← slice e 0 stop, ← slice e stop (Text.byteSize e))
  else return none

/-- What a key with the given value text contributes. -/
def entryValue (key value : List Char) : Checked Entry := do
  let nested ← if nestedKeys.contains key then wrappedIn value '\x7b' else pure false
  if nested then return .nested (← inside value)
  else return .prop (String.ofList key) (← classify value)

/-- What an entry contributes. -/
def contribution (entry : List Char) : Checked Entry := do
  let e := Text.trim entry
  if e = [] then return .nothing
  else if Text.startsWith ['.', '.', '.'] e || Text.startsWith ['['] e then return .spread
  else
    match ← entryKey? e with
    | none => return .nothing
    | some (key, rest) =>
      match Text.trimStart rest with
      | [] => return .prop (String.ofList key) (.reference (String.ofList key))
      | ':' :: value => entryValue key (Text.trim value)
      | _ => return .prop (String.ofList key) .unresolved

/-- The props declared by the body of an object literal. -/
def readObject (body : List Char) : Checked ObjectProps := do
  (← splitTopLevel body ',').foldlM (fun acc e => do
    match ← contribution e with
    | .nothing => return acc
    | .spread => return { acc with spread := true }
    | .prop key value => return { acc with entries := acc.entries ++ [(key, value)] }
    | .nested inner =>
      if inner.length < body.length then return acc.append (← readObject inner)
      else .error .stalled) {}
termination_by body.length

/-- A string literal in quotes ends at the same place on both sides, if it does before the end of
the line. -/
theorem closedString?_eq {text s : List Char} {n e : Nat} (h : Span text n e (c :: s))
    (hc : c = '\'' ∨ c = '"') :
    closedString? text (offset text n) (offset text e) =
      .ok (if quotedLength c s ≠ 0 && (s.take (quotedLength c s)).getLast? = some c then
        some (s.take (quotedLength c s - 1), offset text (n + 1 + quotedLength c s))
      else none) := by
  have hlt := lt_of_isQuote hc
  have hstart := h.offset_succ_of_lt hlt
  have hle := quotedLength_le c s
  rw [closedString?, stringEnd_eq h hc, ok_bind]
  generalize quotedLength c s = m at hle
  cases m with
  | zero => simp [← hstart]
  | succ m =>
    obtain ⟨d, t, hdrop⟩ : ∃ d t, s.drop m = d :: t := by
      cases hd : s.drop m with
      | nil => simp at hd; omega
      | cons d t => exact ⟨d, t, rfl⟩
    have hd := h.tail.drop (Nat.le_of_succ_le hle)
    rw [hdrop] at hd
    -- The character before the end says whether the quote was found.
    have hlast : (s.take (m + 1)).getLast? = some d := by
      rw [List.take_add, hdrop, List.take_succ_cons, List.take_zero, List.getLast?_concat]
    have hlong : ¬ offset text (n + 1 + (m + 1)) < offset text n + 2 := by
      have := @offset_lt_offset text (n + 1) (n + 1 + (m + 1)) (by omega)
      omega
    rw [if_neg hlong, ← Nat.add_assoc, hd.byteAt_trail, ok_bind, h.byteAt_lead, ok_bind,
      lead_of_lt hlt, hlast]
    by_cases hclosed : d = c
    · subst hclosed
      have hstop := hd.offset_succ_of_lt hlt
      have hslice := (h.tail.take (Nat.le_of_succ_le hle)).slice_eq
      simp [trail_of_lt hlt, hstart, ← hstop, hslice]
    · simp [trail_eq_iff hlt, hclosed]

private theorem entryKey?_eq (c : Char) (s : List Char) :
    entryKey? (c :: s) = .ok (Script.entryKey? (c :: s)) := by
  have h := Span.whole (c :: s)
  -- Behind the key both sides cut off the rest of the entry.
  have hslice : ∀ k ≤ (c :: s).length, slice (c :: s) (offset (c :: s) k) (Text.byteSize (c :: s)) =
      .ok ((c :: s).drop k) := fun k hk => by
    have := (h.drop hk).slice_eq
    rwa [offset_length, Nat.zero_add] at this
  rw [entryKey?, byteAt_zero, ok_bind, Script.entryKey?]
  by_cases hquote : c = '\'' ∨ c = '"'
  · have hclosed := closedString?_eq h hquote
    rw [offset_zero, offset_length, Nat.zero_add] at hclosed
    have hle : 1 + quotedLength c s ≤ (c :: s).length := by
      have := quotedLength_le c s
      rw [List.length_cons]
      omega
    have hrest := hslice (1 + quotedLength c s) hle
    rw [Nat.add_comm 1, List.drop_succ_cons, Nat.add_comm _ 1] at hrest
    have hq : (decide (c = '\'') || decide (c = '"')) = true := by simpa using hquote
    have hlead : (decide (lead c = '\'') || decide (lead c = '"')) = true := by
      simpa [lead_eq_iff] using hquote
    rw [if_pos hlead, hclosed, if_pos hq, ok_bind]
    dsimp only
    cases decide (quotedLength c s ≠ 0) &&
      decide ((s.take (quotedLength c s)).getLast? = some c) with
    | false => rfl
    | true =>
      simp only [if_true, hrest]
      rfl
  · have hq : ¬ (decide (c = '\'') || decide (c = '"')) = true := by simpa using hquote
    have hlead : ¬ (decide (lead c = '\'') || decide (lead c = '"')) = true := by
      simpa [lead_eq_iff] using hquote
    rw [if_neg hlead, if_neg hq, asciiOnly_isIdentChar.lead]
    split
    · have hle : identLength (c :: s) ≤ (c :: s).length := (List.takeWhile_sublist _).length_le
      have hstop := identEnd_eq h
      have hkey := (h.take hle).slice_eq
      rw [offset_zero, Nat.zero_add] at hkey
      rw [offset_zero, offset_length, Nat.zero_add] at hstop
      rw [hstop, ok_bind, hkey, ok_bind, hslice _ hle, ok_bind, identLength,
        take_length_takeWhile, drop_length_takeWhile]
      rfl
    · rfl

private theorem entryValue_eq (key value : List Char) :
    entryValue key value = ofOption (Script.entryValue? key value) := by
  rw [entryValue, Script.entryValue?]
  cases nestedKeys.contains key with
  | false =>
    simp only [if_false, Bool.false_eq_true, pure_eq_ok, ok_bind, classify_eq]
    cases Script.classify value <;> rfl
  | true =>
    simp only [if_true, @wrappedIn_eq '\x7b' (by decide), ok_bind]
    cases hin : enclosed? '\x7b' value with
    | none =>
      simp only [Option.isSome_none, Bool.false_eq_true, if_false, classify_eq]
      cases Script.classify value <;> rfl
    | some inner =>
      rw [inside_of_enclosed? hin]
      rfl

/-- What an entry contributes is the same on both sides. -/
theorem contribution_eq (e : List Char) : contribution e = ofOption (contribution? e) := by
  rw [contribution, contribution?]
  cases Text.trim e with
  | nil => rfl
  | cons c s =>
    rw [if_neg (List.cons_ne_nil c s), trimmedContribution?, entryKey?_eq]
    split
    · rfl
    · rw [ok_bind]
      cases Script.entryKey? (c :: s) with
      | none => rfl
      | some found =>
        obtain ⟨key, rest⟩ := found
        simp only [entryValue_eq]
        split <;> simp_all [ofOption]

@[simp] theorem ofOption_some {α : Type} (a : α) : ofOption (some a) = .ok a := rfl

private theorem ofOption_bind {α β : Type} (a? : Option α) (f : α → Option β) :
    ofOption (a?.bind f) = ofOption a? >>= fun a => ofOption (f a) := by
  cases a? <;> rfl

private theorem foldlM_ofOption {α β : Type} {f : β → α → Checked β} {g : β → α → Option β}
    {l : List α} (h : ∀ a ∈ l, ∀ acc, f acc a = ofOption (g acc a)) (acc : β) :
    l.foldlM f acc = ofOption (l.foldlM g acc) := by
  induction l generalizing acc with
  | nil => rfl
  | cons a l ih =>
    rw [List.foldlM_cons, List.foldlM_cons, h a List.mem_cons_self]
    cases g acc a with
    | none => rfl
    | some acc => exact ih (fun a ha => h a (List.mem_cons_of_mem _ ha)) acc

/-- **Object literals.** The entries of an object literal are read alike on both sides. -/
theorem readObject_eq (body : List Char) : readObject body = ofOption (readObject? body) := by
  induction hlen : body.length using Nat.strongRecOn generalizing body with
  | _ len ih =>
    rw [readObject, splitTopLevel_eq (by decide), ok_bind, readObject?_eq_foldlM]
    refine foldlM_ofOption (fun e he acc => ?_) _
    rw [contribution_eq, ofOption_bind]
    cases hc : contribution? e with
    | none => rfl
    | some entry =>
      cases entry with
      | nothing => rfl
      | spread => rfl
      | prop key value => rfl
      | nested inner =>
        have hlt : inner.length < body.length :=
          Nat.lt_of_lt_of_le (length_nested_lt_of_contribution? hc)
            (length_le_of_mem_splitTopLevel he)
        simp only [ofOption_some, ok_bind, if_pos hlt, ObjectProps.add?,
          ih _ (hlen ▸ hlt) inner rfl]
        cases readObject? inner <;> rfl

end ComponentAudit.Offset
