import ComponentAudit.Proofs.Offset.Expression
import ComponentAudit.Proofs.Offset.Table
import ComponentAudit.Proofs.Written.Tag

/-!
# Attributes by byte offsets

The values of attributes, read by bytes, and what an attribute does to the table of sites. An
expression in braces is scanned between the reading of its end and the cut of its text, so the
reading takes the table along; `attrValue_eq` separates the two again.
-/

namespace ComponentAudit.Offset

open Script

variable {text s : List Char} {n e : Nat} {c : Char}

/-! ### Searches among bytes -/

private theorem findIdx?_units {q : Char} (hq : q.toNat < 128) (c : Char) :
    (units c).findIdx? (· = q) = if c = q then some 0 else none := by
  split
  · next h =>
    subst h
    simp [units_of_lt hq]
  · next h =>
    rw [List.findIdx?_eq_none_iff]
    intro u hu
    by_cases hc : c.toNat < 128
    · rw [units_of_lt hc, List.mem_singleton] at hu
      simpa [hu] using h
    · simpa using ne_of_le hq (le_of_mem_units (Nat.le_of_not_lt hc) hu)

theorem findChar?_cons (q c : Char) (s : List Char) :
    Text.findChar? q (c :: s) = if c = q then some 0 else (Text.findChar? q s).map (· + 1) := by
  rw [Text.findChar?, Text.findWhere?_cons]
  simp [Text.findChar?]

/-- The first byte that is an ASCII character belongs to the first such character. -/
theorem findIdx?_bytes {q : Char} (hq : q.toNat < 128) (s : List Char) :
    (bytes s).findIdx? (· = q) =
      (Text.findChar? q s).map fun k => Text.byteSize (s.take k) := by
  induction s with
  | nil => rfl
  | cons c s ih =>
    rw [bytes_cons, List.findIdx?_append, findIdx?_units hq, ih, findChar?_cons]
    split
    · rfl
    · simp [length_units, Function.comp_def, Nat.add_comm]

theorem findChar?_lt {q : Char} {k : Nat} (h : Text.findChar? q s = some k) : k < s.length := by
  induction s generalizing k with
  | nil => cases h
  | cons c s ih =>
    rw [findChar?_cons] at h
    split at h
    · cases h
      exact Nat.succ_pos _
    · obtain ⟨k, hk, rfl⟩ := Option.map_eq_some_iff.1 h
      exact Nat.succ_lt_succ (ih hk)

/-- The character that is found stands where it is found. -/
theorem getElem?_of_findChar? {q : Char} {k : Nat} (h : Text.findChar? q s = some k) :
    ∃ t, s.drop k = q :: t := by
  induction s generalizing k with
  | nil => cases h
  | cons c s ih =>
    rw [findChar?_cons] at h
    split at h
    · next hc =>
      cases h
      exact ⟨s, by rw [hc]; rfl⟩
    · obtain ⟨k, hk, rfl⟩ := Option.map_eq_some_iff.1 h
      exact ih hk

/-! ### Values -/

/-- A scan of the region between two offsets, which adds to the table. -/
abbrev Scan := List Site → Nat → Nat → Checked (List Site)

/-- The end of the unquoted value at `v`. -/
def unquotedEnd (text : List Char) (v bound : Nat) : Checked Nat := do
  let stop ← passWhile (fun c => !Text.isSpace c && c ≠ '>') text v bound
  if v < stop then
    let last ← byteAt text (stop - 1)
    if last = '/' && stop < bound then
      let next ← byteAt text stop
      return if next = '>' then stop - 1 else stop
    else return stop
  else return stop

/-- The value at `v` and the end of it, if there is one. -/
def attrValue (text : List Char) (scan : Scan) (flavor : Flavor) (table : List Site)
    (v bound : Nat) : Checked (Option (AttrValue × Nat) × List Site) :=
  if bound ≤ v then return (none, table)
  else do
    let u ← byteAt text v
    if u = '"' || u = '\'' then
      match (← byteSlice text (v + 1) bound).findIdx? (· = u) with
      | none => return (none, table)
      | some length =>
        return (some (.text (← slice text (v + 1) (v + 1 + length)), v + length + 2), table)
    else if u = '\x7b' then
      match ← closeOffset? text v bound with
      | none => return (none, table)
      | some close =>
        let table ← if flavor = .jsx then scan table (v + 1) close else pure table
        return (some (.expr (← slice text (v + 1) close), close + 1), table)
    else match flavor with
      | .markup =>
        let stop ← unquotedEnd text v bound
        return (some (.text (← slice text v stop), stop), table)
      | .jsx => return (none, table)

/-- The scan of an attribute value: only an expression in script code is scanned. -/
def scanValue (scan : Scan) (flavor : Flavor) (table : List Site) (value : AttrValue)
    (start stop : Nat) : Checked (List Site) :=
  match flavor, value with
  | .jsx, .expr _ => scan table start stop
  | _, _ => return table

private theorem asciiOnly_unquoted : AsciiOnly fun c => !Text.isSpace c && c ≠ '>' :=
  asciiOnly_of_true fun u hu => by simp [isSpace_of_le hu, ne_of_le (x := '>') (by decide) hu]

private theorem unquotedLength_le (s : List Char) : unquotedLength s ≤ s.length := by
  have hle : (s.takeWhile fun c => !Text.isSpace c && c ≠ '>').length ≤ s.length :=
    (List.takeWhile_sublist _).length_le
  unfold unquotedLength
  dsimp only
  split <;> omega

/-- A value without quotes ends at the same place on both sides. -/
theorem unquotedEnd_eq (h : Span text n e s) :
    unquotedEnd text (offset text n) (offset text e) =
      .ok (offset text (n + unquotedLength s)) := by
  have hstop := passWhile_eq asciiOnly_unquoted h
  have hle : (s.takeWhile fun c => !Text.isSpace c && c ≠ '>').length ≤ s.length :=
    (List.takeWhile_sublist _).length_le
  have hvalue := h.take hle
  have hrest := h.drop hle
  rw [take_length_takeWhile] at hvalue
  rw [unquotedEnd, hstop, ok_bind, unquotedLength]
  generalize (s.takeWhile fun c => !Text.isSpace c && c ≠ '>') = value at *
  -- The last character matters: a slash in front of the `>` belongs to the tag, not to the value.
  rcases List.eq_nil_or_concat value with rfl | ⟨value, d, rfl⟩
  · simp
  · rw [List.concat_eq_append] at *
    have hd := hvalue.split.2.head
    have hlen : n + (value ++ [d]).length = n + value.length + 1 := by simp [Nat.add_assoc]
    rw [hlen] at hrest ⊢
    rw [if_pos (offset_lt_iff.2 (by omega)), hd.byteAt_trail, ok_bind, List.getLast?_concat]
    by_cases hslash : d = '/'
    · subst hslash
      have hback : offset text (n + value.length + 1) - 1 = offset text (n + value.length) := by
        rw [← hd.offset_succ_of_lt (by decide), Nat.add_sub_cancel]
      cases hr : s.drop (value ++ ['/']).length with
      | nil =>
        rw [hr] at hrest
        obtain rfl : e = n + value.length + 1 := hrest.stop_eq
        simp [← Nat.add_assoc]
      | cons x t =>
        rw [hr] at hrest
        by_cases hx : x = '>'
        · simp [trail_of_lt, hrest.lt, hrest.byteAt_lead, lead_eq_iff, hx, hback]
        · simp [trail_of_lt, hrest.lt, hrest.byteAt_lead, lead_eq_iff, hx, ← Nat.add_assoc]
    · simp [trail_eq_iff, hslash, ← Nat.add_assoc]

/-- The length of the text of a value. -/
def valueLength : AttrValue → Nat
  | .bare => 0
  | .text s => s.length
  | .expr e => e.length

/-- **Attribute values.** On the bytes of a text the value after an `=` is read as on its
characters, with its ends at the corresponding offsets. -/
theorem attrValue_eq {scan : Scan} {flavor : Flavor} {table : List Site} (h : Span text n e s) :
    attrValue text scan flavor table (offset text n) (offset text e) =
      match readValue? flavor s with
      | none => .ok (none, table)
      | some (value, before, length) => do
        let table ← scanValue scan flavor table value (offset text (n + before))
          (offset text (n + before + valueLength value))
        return (some (value, offset text (n + length)), table) := by
  cases s with
  | nil =>
    obtain rfl : e = n := h.stop_eq
    rw [attrValue.eq_def, if_pos (Nat.le_refl _)]
    rfl
  | cons c s =>
    rw [attrValue.eq_def, if_neg (Nat.not_le_of_lt (offset_lt_iff.2 h.lt)), h.byteAt_lead, ok_bind,
      readValue?.eq_def]
    dsimp only
    by_cases hquote : c = '"' ∨ c = '\''
    · have hc := lt_of_isQuote hquote.symm
      have hstart := h.offset_succ_of_lt hc
      have hq : (decide (c = '"') || decide (c = '\'')) = true := by simpa using hquote
      rw [lead_of_lt hc, if_pos hq, if_pos hq, hstart, h.tail.byteSlice_eq, ok_bind,
        findIdx?_bytes hc]
      cases hk : Text.findChar? c s with
      | none => rfl
      | some k =>
        have hlt := findChar?_lt hk
        have htext := h.tail.take (Nat.le_of_lt hlt)
        obtain ⟨t, hdrop⟩ := getElem?_of_findChar? hk
        have hclose := h.tail.drop (Nat.le_of_lt hlt)
        rw [hdrop] at hclose
        have hstop := htext.offset_stop
        have hsucc := hclose.offset_succ_of_lt hc
        -- Both quotes are one byte long.
        have hend : offset text n + Text.byteSize (s.take k) + 2 = offset text (n + (k + 2)) := by
          rw [show n + (k + 2) = n + 1 + k + 1 by omega, ← hsucc, hstop, ← hstart]
          omega
        simp only [Option.map_some, ← hstop, htext.slice_eq, ok_bind, hend]
        cases flavor <;> rfl
    · have hq : ¬ (decide (c = '"') || decide (c = '\'')) = true := by simpa using hquote
      have hlead : ¬ (decide (lead c = '"') || decide (lead c = '\'')) = true := by
        simpa [lead_eq_iff] using hquote
      rw [if_neg hlead, if_neg hq]
      by_cases hbrace : c = '\x7b'
      · subst hbrace
        have hstart := h.offset_succ_of_lt (by decide)
        rw [if_pos ((lead_eq_iff (by decide)).2 rfl), if_pos rfl, closeOffset?_eq h, ok_bind,
          hstart]
        cases hk : closeLength? '\x7b' s with
        | none => rfl
        | some k =>
          obtain ⟨hlt, hsucc⟩ := h.offset_closer hk
          have htext := h.tail.take (Nat.le_of_lt hlt)
          have hlen : (s.take k).length = k := by simp [Nat.le_of_lt hlt]
          rw [show n + 1 + (k + 1) = n + (k + 2) by omega] at hsucc
          cases flavor <;> simp [scanValue, valueLength, hlen, htext.slice_eq, hsucc]
      · rw [if_neg fun hu => hbrace ((lead_eq_iff (by decide)).1 hu), if_neg hbrace]
        cases flavor with
        | jsx => rfl
        | markup =>
          have htext := h.take (unquotedLength_le (c :: s))
          rw [unquotedEnd_eq h, ok_bind, htext.slice_eq]
          rfl

/-! ### Meaning -/

/-- The value of an attribute that is taken as written. -/
def plainValue : AttrValue → Checked PropValue
  | .bare => return .bool true
  | .text s => return .string (String.ofList s)
  | .expr e => classify e

/-- The value of an attribute whose text is an expression. -/
def boundValue : AttrValue → Checked PropValue
  | .bare => return .unresolved
  | .text e => classify e
  | .expr e => classify e

/-- The meaning of an attribute in template markup. -/
def markupMeaning (attr : List Char) (value : AttrValue) : Checked AttrMeaning :=
  if attr = "v-bind".toList then return .spread
  else match eventName? attr with
    | some event => return .prop ('o' :: 'n' :: withoutModifiers event) (← boundValue value)
    | none =>
      match boundName? attr with
      | some prop => return .prop (withoutModifiers prop) (← boundValue value)
      | none => if isDirective attr then return .ignored else return .prop attr (← plainValue value)

/-- The meaning of an attribute. -/
def meaning (flavor : Flavor) (attr : List Char) (value : AttrValue) : Checked AttrMeaning :=
  match flavor with
  | .jsx => return .prop attr (← plainValue value)
  | .markup => markupMeaning attr value

/-- Adds an attribute to the site with the given index. -/
def applyAttribute (table : List Site) (flavor : Flavor) (attr : List Char) (value : AttrValue)
    (i : Nat) : Checked (List Site) := do
  match ← meaning flavor attr value with
  | .ignored => return table
  | m => updateAt table i (·.applyMeaning m)

private theorem ofOption_map {α β : Type} (a? : Option α) (f : α → β) :
    ofOption (a?.map f) = ofOption a? >>= fun a => .ok (f a) := by
  cases a? <;> rfl

private theorem plainValue_eq (value : AttrValue) :
    plainValue value = ofOption (plainValue? value) := by
  cases value <;> simp [plainValue, plainValue?, classify_eq]

private theorem boundValue_eq (value : AttrValue) :
    boundValue value = ofOption (boundValue? value) := by
  cases value <;> simp [boundValue, boundValue?, classify_eq]

/-- What an attribute means is settled alike on both sides; a literal that ends inside a character
is the one failure. -/
theorem meaning_eq (flavor : Flavor) (a : Attribute) :
    meaning flavor a.name a.value = ofOption (a.meaning? flavor) := by
  cases flavor with
  | jsx => simp only [meaning, Attribute.meaning?, plainValue_eq, ofOption_map]; rfl
  | markup =>
    simp only [meaning, Attribute.meaning?, markupMeaning, markupMeaning?, boundValue_eq,
      plainValue_eq]
    split
    · rfl
    · cases eventName? a.name with
      | some event => simp [ofOption_map]
      | none =>
        cases boundName? a.name with
        | some prop => simp [ofOption_map]
        | none => cases isDirective a.name <;> simp [ofOption_map]

/-- What an attribute does to a site has nothing to do with the places of the site. -/
theorem inBytes_applyMeaning (m : AttrMeaning) (s : Site) :
    inBytes text (s.applyMeaning m) = (inBytes text s).applyMeaning m := by
  cases m <;> rfl

/-- An attribute changes the entry of its site as it changes the site. -/
theorem applyAttribute_eq (flavor : Flavor) (a : Attribute) (before after : List Site) (s : Site) :
    applyAttribute (before ++ inBytes text s :: after) flavor a.name a.value before.length =
      ofOption (Option.map (fun s => before ++ inBytes text s :: after) <| s.apply? flavor a) := by
  rw [applyAttribute, meaning_eq, Site.apply?]
  cases a.meaning? flavor with
  | none => rfl
  | some m => cases m <;> simp [updateAt_append, ← inBytes_applyMeaning] <;> rfl

end ComponentAudit.Offset
