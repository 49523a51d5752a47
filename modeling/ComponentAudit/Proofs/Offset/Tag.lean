import ComponentAudit.Proofs.Invocation.Tag
import ComponentAudit.Proofs.Offset.Attribute

/-!
# Start tags by byte offsets

The reading of a start tag by bytes. The site of the tag goes into the table before its attributes
are read, the sites in the attributes after it, and when the text turns out to be no tag, the table
is cut back to what it was.

`tagPartTurn_eq` compares what stands at one place among the attributes, `tagTurns_eq` the walk over
them, and `readTag_eq` whole tags.
-/

namespace ComponentAudit.Offset

open Script

variable {text s : List Char} {n e : Nat} {c : Char}

/-! ### Classes of characters -/

private theorem isAlpha_of_le {u : Char} (h : 128 ≤ u.toNat) : u.isAlpha = false := by
  refine Bool.eq_false_iff.2 fun halpha => ?_
  have hle : u.val ≤ 'Z'.val ∨ u.val ≤ 'z'.val := by
    rcases Bool.or_eq_true_iff.1 halpha with hupper | hlower
    · exact .inl (of_decide_eq_true hupper).2
    · exact .inr (of_decide_eq_true (Bool.and_eq_true_iff.1 hlower).2)
  simp only [UInt32.le_iff_toNat_le] at hle
  have hval : u.toNat = u.val.toNat := rfl
  have hupper : 'Z'.val.toNat = 90 := rfl
  have hlower : 'z'.val.toNat = 122 := rfl
  omega

theorem asciiOnly_isAlpha : AsciiOnly Char.isAlpha := asciiOnly_of_false fun _ => isAlpha_of_le

private theorem asciiOnly_isAttrStart : AsciiOnly isAttrStart :=
  asciiOnly_of_true fun u hu => by simp [isAttrStart, isIdentStart_of_le hu]

private theorem asciiOnly_isAttrChar : AsciiOnly isAttrChar :=
  asciiOnly_of_true fun u hu => by simp [isAttrChar, isIdentChar_of_le hu]

/-- To a tag name all characters beyond ASCII are alike. -/
theorem asciiOnly_isTagChar : AsciiOnly isTagChar :=
  asciiOnly_of_true fun u hu => by simp [isTagChar, isIdentChar_of_le hu]

/-- The character before a place, if there is one. -/
def Precedes (text : List Char) (n : Nat) : Option Char → Prop
  | none => n = 0
  | some d => ∃ m, n = m + 1 ∧ Span text m n [d]

/-! ### Parts of a tag -/

/-- What the attributes of a tag come to: whether the tag closes itself and where it ends, if it
does end, and the table. -/
abbrev TagEnd := Option (Bool × Nat) × List Site

/-- Whether the byte at `i` is there and is `c`. -/
def isAt (text : List Char) (c : Char) (i bound : Nat) : Checked Bool :=
  if i < bound then return (← byteAt text i) = c else return false

/-- Changes the entry of a site, if the tag has one. -/
def onSite (site : Option Nat) (table : List Site) (f : Nat → Checked (List Site)) :
    Checked (List Site) :=
  match site with
  | none => return table
  | some i => f i

/-- An attribute that starts at `j`. -/
def attributeTurn (text : List Char) (scan : Scan) (flavor : Flavor) (site : Option Nat)
    (bound : Nat) (table : List Site) (j : Nat) : Checked (Turn (List Site) TagEnd) := do
  let stop ← passWhile isAttrChar text j bound
  let attr ← slice text j stop
  let eq ← spaceEnd text stop bound
  let (value?, table) ←
    if ← isAt text '=' eq bound then
      attrValue text scan flavor table (← spaceEnd text (eq + 1) bound) bound
    else pure (some (.bare, stop), table)
  match value? with
  | none => return .done (none, table)
  | some (value, next) =>
    return .next (← onSite site table (applyAttribute table flavor attr value)) next

/-- The end of the comment at `j`; only tags inside script code have comments. -/
def tagComment? (text : List Char) (flavor : Flavor) (j bound : Nat) : Checked (Option Nat) :=
  if flavor = .jsx then commentEnd? text j bound else return none

/-- Braces that start at `j`, with a spread in them or not. -/
def braceTurn (text : List Char) (site : Option Nat) (bound : Nat) (table : List Site) (j : Nat) :
    Checked (Turn (List Site) TagEnd) := do
  match ← closeOffset? text j bound with
  | none => return .done (none, table)
  | some close =>
    let inner ← slice text (j + 1) close
    if Text.startsWith ['.', '.', '.'] (Text.trimStart inner) then
      let table ← onSite site table fun i => updateAt table i (·.applyMeaning .spread)
      return .next table (close + 1)
    else return .next table (close + 1)

/-- Whether the byte `u` at `j` begins a `/>`. -/
def selfCloses (text : List Char) (u : Char) (j bound : Nat) : Checked Bool :=
  if u = '/' then isAt text '>' (j + 1) bound else return false

/-- What stands at `j` among the attributes, when that is no separator. -/
def tagPartTurn (text : List Char) (scan : Scan) (flavor : Flavor) (site : Option Nat) (bound : Nat)
    (table : List Site) (j : Nat) : Checked (Turn (List Site) TagEnd) := do
  match ← tagComment? text flavor j bound with
  | some next => return .next table next
  | none =>
    if bound ≤ j then return .done (none, table)
    else
      let u ← byteAt text j
      if ← selfCloses text u j bound then return .done (some (true, j + 2), table)
      else if u = '>' then return .done (some (false, j + 1), table)
      else if u = '\x7b' then braceTurn text site bound table j
      else if isAttrStart u then attributeTurn text scan flavor site bound table j
      else return .done (none, table)

/-- A turn of the walk over the attributes. -/
def tagTurn (text : List Char) (scan : Scan) (flavor : Flavor) (site : Option Nat) (bound : Nat)
    (table : List Site) (j : Nat) : Checked (Turn (List Site) TagEnd) := do
  tagPartTurn text scan flavor site bound table (← spaceEnd text j bound)

/-- The walk over the attributes. -/
def tagTurns (text : List Char) (scan : Scan) (flavor : Flavor) (site : Option Nat) (bound : Nat)
    (table : List Site) (j : Nat) : Checked TagEnd :=
  loop bound (tagTurn text scan flavor site bound) (fun table _ => (none, table)) table j

/-- An ASCII character is recognized by its byte. -/
theorem isAt_eq {x : Char} (hx : x.toNat < 128) (h : Span text n e s) :
    isAt text x (offset text n) (offset text e) = .ok (decide (s.head? = some x)) := by
  cases s with
  | nil =>
    obtain rfl : e = n := h.stop_eq
    simp [isAt]
  | cons c s => simp [isAt, h.lt, h.byteAt_lead, lead_eq_iff hx]

/-- The turn at an attribute that has been read. -/
def attributeRead (text : List Char) (scan : Scan) (flavor : Flavor) (site : Option Nat)
    (table : List Site) (n : Nat) (a : Attribute) : Checked (Turn (List Site) TagEnd) := do
  let table ← scanValue scan flavor table a.value (offset text (n + a.valueStart))
    (offset text (n + a.valueStart + valueLength a.value))
  return .next (← onSite site table (applyAttribute table flavor a.name a.value))
    (offset text (n + a.length))

/-- A turn at the name of an attribute. -/
theorem attributeTurn_eq {scan : Scan} {flavor : Flavor} {site : Option Nat} {table : List Site}
    (h : Span text n e s) :
    attributeTurn text scan flavor site (offset text e) table (offset text n) =
      match readAttribute? flavor s with
      | none => .ok (.done (none, table))
      | some a => attributeRead text scan flavor site table n a := by
  have hle : (s.takeWhile isAttrChar).length ≤ s.length := (List.takeWhile_sublist _).length_le
  have hname := h.take hle
  have hrest := h.drop hle
  rw [take_length_takeWhile] at hname
  rw [attributeTurn, passWhile_eq asciiOnly_isAttrChar h, ok_bind, hname.slice_eq, ok_bind,
    spaceEnd_eq hrest, ok_bind, readAttribute?]
  dsimp only
  generalize s.takeWhile isAttrChar = name at *
  generalize s.drop name.length = rest at *
  have hgap : spaceLength rest ≤ rest.length := (List.takeWhile_sublist _).length_le
  have hafter := hrest.drop hgap
  rw [isAt_eq (by decide) hafter, ok_bind]
  -- Without an `=` the attribute ends with its name, and the blanks are left for the next turn.
  cases hr : rest.drop (spaceLength rest) with
  | nil => simp [attributeRead, scanValue]
  | cons d value =>
    rw [hr] at hafter
    by_cases hd : d = '='
    · subst hd
      have hspace : spaceLength value ≤ value.length := (List.takeWhile_sublist _).length_le
      have hvalue := hafter.tail.drop hspace
      rw [drop_spaceLength] at hvalue
      simp only [List.head?_cons, decide_true, if_true, hafter.offset_succ_of_lt (by decide),
        spaceEnd_eq hafter.tail, ok_bind, attrValue_eq hvalue]
      cases readValue? flavor (skipSpace value) with
      | none => rfl
      | some read =>
        obtain ⟨v, before, length⟩ := read
        simp only [Option.map_some, attributeRead, bind_assoc, pure_eq_ok, ok_bind, Nat.add_assoc]
    · simp [attributeRead, scanValue, hd]

/-- The turn at a part of a tag. -/
def partTurn (text : List Char) (scan : Scan) (flavor : Flavor) (site : Option Nat)
    (table : List Site) (n : Nat) : TagPart → Checked (Turn (List Site) TagEnd)
  | .close selfClosing length => return .done (some (selfClosing, offset text (n + length)), table)
  | .broken => return .done (none, table)
  | .pass skip => return .next table (offset text (n + 1 + skip))
  | .spread skip =>
    return .next (← onSite site table fun i => updateAt table i (·.applyMeaning .spread))
      (offset text (n + 1 + skip))
  | .attribute a => attributeRead text scan flavor site table n a

private theorem selfCloses_eq (h : Span text n e (c :: s)) :
    selfCloses text (lead c) (offset text n) (offset text e) =
      .ok (c = '/' && s.head? = some '>') := by
  by_cases hc : c = '/'
  · subst hc
    rw [selfCloses, if_pos ((lead_eq_iff (by decide)).2 rfl), h.offset_succ_of_lt (by decide),
      isAt_eq (by decide) h.tail]
    simp
  · rw [selfCloses, if_neg fun hu => hc ((lead_eq_iff (by decide)).1 hu)]
    simp [hc]

private theorem braceTurn_eq {scan : Scan} {flavor : Flavor} {site : Option Nat} {table : List Site}
    (h : Span text n e ('\x7b' :: s)) :
    braceTurn text site (offset text e) table (offset text n) =
      partTurn text scan flavor site table n (match closeLength? '\x7b' s with
        | none => .broken
        | some k =>
          if Text.startsWith ['.', '.', '.'] (Text.trimStart (s.take k)) then .spread (k + 1)
          else .pass (k + 1)) := by
  rw [braceTurn, closeOffset?_eq h, ok_bind]
  cases hk : closeLength? '\x7b' s with
  | none => rfl
  | some k =>
    obtain ⟨hlt, hsucc⟩ := h.offset_closer hk
    simp only [Option.map_some, h.offset_succ_of_lt (by decide),
      (h.tail.take (Nat.le_of_lt hlt)).slice_eq, ok_bind, hsucc]
    split <;> rfl

/-- By bytes and by characters the same part stands among the attributes. -/
theorem tagPartTurn_eq {scan : Scan} {flavor : Flavor} {site : Option Nat} {table : List Site}
    (h : Span text n e (c :: s)) (hspace : Text.isSpace c = false) :
    tagPartTurn text scan flavor site (offset text e) table (offset text n) =
      partTurn text scan flavor site table n (tagPart flavor c s) := by
  have hcomment : tagComment? text flavor (offset text n) (offset text e) =
      .ok ((if flavor = .jsx then commentLength? (c :: s) else none).map
        fun k => offset text (n + k)) := by
    rw [tagComment?]
    split
    · exact commentEnd?_eq h
    · rfl
  rw [tagPartTurn, hcomment, ok_bind, tagPart, hspace]
  -- In code a comment may stand among the attributes; it is looked for first.
  cases hc : (if flavor = .jsx then commentLength? (c :: s) else none) with
  | some k =>
    have hpos : 0 < k := by
      split at hc
      · exact commentLength?_pos hc
      · cases hc
    simp [partTurn, show n + 1 + (k - 1) = n + k by omega]
  | none =>
    have hlt : ¬ offset text e ≤ offset text n := by
      rw [offset_le_iff]
      exact Nat.not_le_of_lt h.lt
    simp only [Option.map_none, hlt, if_false, h.byteAt_lead, ok_bind, selfCloses_eq h,
      Bool.false_eq_true]
    by_cases hself : (decide (c = '/') && decide (s.head? = some '>')) = true
    · rw [if_pos hself, if_pos hself]
      obtain ⟨rfl, hhead⟩ : c = '/' ∧ s.head? = some '>' := by simpa using hself
      obtain ⟨t, rfl⟩ := List.head?_eq_some_iff.1 hhead
      rw [partTurn, ← h.tail.offset_succ_of_lt (by decide), ← h.offset_succ_of_lt (by decide)]
    · rw [if_neg hself, if_neg hself]
      by_cases hgt : c = '>'
      · subst hgt
        rw [if_pos ((lead_eq_iff (by decide)).2 rfl), if_pos rfl, partTurn,
          h.offset_succ_of_lt (by decide)]
      · rw [if_neg fun hu => hgt ((lead_eq_iff (by decide)).1 hu), if_neg hgt]
        by_cases hbrace : c = '\x7b'
        · subst hbrace
          rw [if_pos ((lead_eq_iff (by decide)).2 rfl), if_pos rfl]
          exact braceTurn_eq h
        · rw [if_neg fun hu => hbrace ((lead_eq_iff (by decide)).1 hu), if_neg hbrace,
            asciiOnly_isAttrStart.lead, attributeTurn_eq h]
          split
          · cases readAttribute? flavor (c :: s) <;> rfl
          · rfl

/-- Nothing stands at the end of the region. -/
theorem tagPartTurn_end {scan : Scan} {flavor : Flavor} {site : Option Nat} {table : List Site}
    (h : Span text n e []) :
    tagPartTurn text scan flavor site (offset text e) table (offset text n) =
      .ok (.done (none, table)) := by
  have hcomment : tagComment? text flavor (offset text n) (offset text e) = .ok none := by
    rw [tagComment?]
    split
    · exact commentEnd?_eq h
    · rfl
  obtain rfl : e = n := h.stop_eq
  rw [tagPartTurn, hcomment, ok_bind]
  exact if_pos (Nat.le_refl _)

/-! ### The walk over the attributes -/

/-- The scan by offsets finds in every region what the scan by characters finds, and adds it to the
table. -/
def Agrees (text : List Char) (scan : Scan) (inner : InnerScan) : Prop :=
  ∀ (table : List Site) (n e : Nat) (before : Option Char) (s : List Char), Span text n e s →
    Precedes text n before →
    scan table (offset text n) (offset text e) =
      lift ((inner table.length ⟨n, before, s⟩).map fun found => table ++ recorded text found)

theorem agrees_nothing : Agrees text (fun table _ _ => return table) fun _ _ => .ok [] := by
  intro table n e before s _ _
  simp [Except.map]

/-- The table with what has been read of a tag, whose site comes before the sites inside. -/
def tagTable (text : List Char) (base : List Site) (site : Option Site) (inner : List Site) :
    List Site :=
  base ++ recorded text (inner ++ site.toList)

/-- A tag with a site has it in front of those in its attributes. -/
theorem tagTable_some (base : List Site) (s : Site) (inner : List Site) :
    tagTable text base (some s) inner = base ++ inBytes text s :: recorded text inner := by
  simp [tagTable]

private theorem tagTable_append (base : List Site) (site : Option Site) (found inner : List Site) :
    tagTable text base site inner ++ recorded text found =
      tagTable text base site (found ++ inner) := by
  simp [tagTable]

private theorem exists_brace_of_readValue? {flavor : Flavor} {x : List Char} {before length : Nat}
    (h : readValue? flavor s = some (.expr x, before, length)) :
    before = 1 ∧ ∃ post, s = '\x7b' :: (x ++ post) := by
  unfold readValue? at h
  split at h
  · cases h
  · next c t =>
    split at h
    · obtain ⟨k, -, hk⟩ := Option.map_eq_some_iff.1 h
      cases hk
    · split at h
      · next hc =>
        obtain ⟨k, -, hk⟩ := Option.map_eq_some_iff.1 h
        cases hk
        exact ⟨rfl, t.drop k, by rw [List.take_append_drop, hc]⟩
      · split at h <;> cases h

/-- An expression among the attribute values stands in braces. -/
theorem exists_brace_of_readAttribute? {flavor : Flavor} {x : List Char} {a : Attribute}
    (h : readAttribute? flavor s = some a) (hx : a.value = .expr x) :
    ∃ pre post, s = pre ++ '\x7b' :: (x ++ post) ∧ a.valueStart = pre.length + 1 := by
  rw [readAttribute?] at h
  split at h
  · next value hvalue =>
    obtain ⟨⟨v, before, length⟩, hread, ha⟩ := Option.map_eq_some_iff.1 h
    subst ha
    dsimp only at hx ⊢
    subst hx
    obtain ⟨rfl, post, hpost⟩ := exists_brace_of_readValue? hread
    -- The value comes after the name, the separators, the `=` and more separators.
    have hdrop : s.drop ((s.takeWhile isAttrChar).length +
        spaceLength (s.drop (s.takeWhile isAttrChar).length) + 1 + spaceLength value) =
          '\x7b' :: (x ++ post) := by
      rw [← hpost, ← drop_spaceLength value, ← List.drop_drop, ← List.drop_drop, ← List.drop_drop,
        hvalue]
      rfl
    generalize (s.takeWhile isAttrChar).length +
      spaceLength (s.drop (s.takeWhile isAttrChar).length) + 1 + spaceLength value = lead at *
    refine ⟨s.take lead, post, ?_, ?_⟩
    · rw [← hdrop, List.take_append_drop]
    · have hlt := congrArg List.length hdrop
      rw [List.length_drop, List.length_cons] at hlt
      rw [List.length_take, Nat.min_eq_left (by omega)]
  · cases h
    cases hx

/-- The sites in the value of an attribute at the given place. -/
def valueSites (inner : InnerScan) (flavor : Flavor) (count place : Nat) (a : Attribute) : Found :=
  match flavor, a.value with
  | .jsx, .expr x => inner count ⟨place + a.valueStart, some '\x7b', x⟩
  | _, _ => .ok []

/-- An attribute adds the sites in its value and then applies its meaning to the site of the tag. -/
theorem addAttribute_eq (inner : InnerScan) (flavor : Flavor) (place : Nat) (a : Attribute)
    (st : TagState) :
    st.addAttribute flavor inner place a =
      match valueSites inner flavor st.count place a with
      | .error err => .error err
      | .ok found =>
        match st.site with
        | none => .ok { st with inner := found ++ st.inner, count := st.count + found.length }
        | some s =>
          match s.apply? flavor a with
          | none => .error .splitCharacter
          | some s => .ok ⟨some s, found ++ st.inner, st.count + found.length⟩ := by
  obtain ⟨name, value, valueStart, length⟩ := a
  cases flavor <;> cases value <;> rfl

/-- The sites in the value of an attribute go to the end of the table. -/
theorem scanValue_eq {scan : Scan} {inner : InnerScan} (hscan : Agrees text scan inner)
    {flavor : Flavor} {a : Attribute} (h : Span text n e s)
    (ha : readAttribute? flavor s = some a) (table : List Site) :
    scanValue scan flavor table a.value (offset text (n + a.valueStart))
        (offset text (n + a.valueStart + valueLength a.value)) =
      lift ((valueSites inner flavor table.length n a).map fun found =>
        table ++ recorded text found) := by
  unfold scanValue valueSites
  cases hvalue : a.value with
  | bare => cases flavor <;> simp [Except.map]
  | text s => cases flavor <;> simp [Except.map]
  | expr x =>
    cases flavor with
    | markup => simp [Except.map]
    | jsx =>
      obtain ⟨pre, post, rfl, hstart⟩ := exists_brace_of_readAttribute? ha hvalue
      obtain ⟨-, hbrace⟩ := h.split
      have hregion := hbrace.tail.split.1
      have hplace : n + a.valueStart = n + pre.length + 1 := by omega
      simp only [valueLength, hplace]
      exact hscan table _ _ _ x hregion ⟨_, rfl, hbrace.head⟩

/-- What has been read of a tag by bytes and by characters: its site stands in the table after
`base`, and the sites in its attributes follow. -/
structure Reading (text : List Char) (base : List Site) (site : Option Nat) (table : List Site)
    (st : TagState) : Prop where
  site_eq : site = st.site.map fun _ => base.length
  table_eq : table = tagTable text base st.site st.inner
  count_eq : st.count = table.length

section Reading

variable {scan : Scan} {inner : InnerScan} {flavor : Flavor} {base table : List Site}
  {site : Option Nat} {st st' : TagState} {a : Attribute}

/-- An attribute is added to the table as it is added to what has been read of the tag. -/
theorem Reading.attribute (hscan : Agrees text scan inner) (hr : Reading text base site table st)
    (h : Span text n e s) (ha : readAttribute? flavor s = some a) :
    (∃ err, st.addAttribute flavor inner n a = .error err ∧
      attributeRead text scan flavor site table n a = .error (.ofError err)) ∨
    ∃ st' table', st.addAttribute flavor inner n a = .ok st' ∧
      attributeRead text scan flavor site table n a =
        .ok (.next table' (offset text (n + a.length))) ∧ Reading text base site table' st' := by
  obtain ⟨rfl, htable, hcount⟩ := hr
  rw [attributeRead, scanValue_eq hscan h ha, ← hcount, addAttribute_eq]
  cases valueSites inner flavor st.count n a with
  | error err => exact .inl ⟨err, rfl, rfl⟩
  | ok found =>
    subst htable
    obtain ⟨tagSite, sites, count⟩ := st
    simp only [Except.map, lift_ok, ok_bind, tagTable_append]
    have hcount' : count + found.length = (tagTable text base tagSite (found ++ sites)).length := by
      rw [← tagTable_append, List.length_append, length_recorded, ← hcount]
    cases tagSite with
    | none => exact .inr ⟨_, _, rfl, rfl, rfl, rfl, hcount'⟩
    | some s =>
      simp only [Option.map_some, onSite, tagTable_some, applyAttribute_eq]
      cases s.apply? flavor a with
      | none => exact .inl ⟨_, rfl, rfl⟩
      | some s =>
        refine .inr ⟨_, _, rfl, rfl, rfl, (tagTable_some ..).symm, ?_⟩
        simpa [tagTable_some] using hcount'

/-- A spread on both sides. -/
theorem Reading.spread (hr : Reading text base site table st) :
    ∃ table', onSite site table (fun i => updateAt table i (·.applyMeaning .spread)) = .ok table' ∧
      Reading text base site table'
        { st with site := st.site.map fun s => { s with spread := true } } := by
  obtain ⟨rfl, rfl, hcount⟩ := hr
  obtain ⟨tagSite, sites, count⟩ := st
  cases tagSite with
  | none => exact ⟨_, rfl, rfl, rfl, hcount⟩
  | some s =>
    refine ⟨_, ?_, rfl, rfl, ?_⟩
    · simp only [onSite, Option.map_some, tagTable_some, updateAt_append, ← inBytes_applyMeaning]
      rfl
    · simpa [tagTable_some] using hcount

end Reading

private theorem tagWalk_drop {flavor : Flavor} {inner : InnerScan} {name : List Char}
    (st : TagState) (place skip : Nat) (s : List Char) : tagWalk flavor inner name st place skip s =
      tagWalk flavor inner name st (place + skip) 0 (s.drop skip) := by
  induction s generalizing place skip with
  | nil => cases skip <;> simp [tagWalk]
  | cons c s ih =>
    cases skip with
    | zero => rfl
    | succ skip => rw [tagWalk, ih, List.drop_succ_cons, Nat.add_assoc, Nat.add_comm 1]

private theorem tagWalk_skipSpace {flavor : Flavor} {inner : InnerScan} {name : List Char}
    (st : TagState) (place : Nat) (s : List Char) : tagWalk flavor inner name st place 0 s =
      tagWalk flavor inner name st (place + spaceLength s) 0 (skipSpace s) := by
  induction s generalizing place with
  | nil => rfl
  | cons c s ih =>
    by_cases hc : Text.isSpace c = true
    · have hlength : spaceLength (c :: s) = spaceLength s + 1 := by simp [spaceLength, hc]
      have hpart : tagPart flavor c s = .pass 0 := if_pos hc
      simp only [tagWalk, hpart]
      rw [ih, hlength, skipSpace, skipSpace, List.dropWhile_cons_of_pos hc, Nat.add_assoc,
        Nat.add_comm 1]
    · rw [spaceLength, skipSpace, List.takeWhile_cons_of_neg hc, List.dropWhile_cons_of_neg hc]
      rfl

private theorem isAttrStart_of_tagPart {flavor : Flavor} {a : Attribute}
    (h : tagPart flavor c s = .attribute a) : isAttrStart c = true := by
  grind [tagPart]

/-- An attribute has at least the first character of its name. -/
theorem attribute_length_pos {flavor : Flavor} {a : Attribute}
    (h : tagPart flavor c s = .attribute a) : 0 < a.length := by
  have hc : isAttrChar c = true := by
    have hstart := isAttrStart_of_tagPart h
    grind [isAttrStart, isAttrChar, isIdentChar]
  have hname : 0 < ((c :: s).takeWhile isAttrChar).length := by
    rw [List.takeWhile_cons_of_pos hc]
    exact Nat.succ_pos _
  have ha := readAttribute?_of_tagPart h
  rw [readAttribute?] at ha
  split at ha
  · obtain ⟨⟨v, before, length⟩, -, rfl⟩ := Option.map_eq_some_iff.1 ha
    dsimp only
    omega
  · cases ha
    exact hname

/-- What the walk over the attributes comes to by bytes, given what it comes to by characters. A tag
that does not end leaves something behind in the table. -/
def TagMatches (text : List Char) (base : List Site) (name : List Char) (site : Option Nat)
    (run : Checked TagEnd) : Except ExtractError (Option ComponentAudit.Tag) → Prop
  | .error err => run = .error (.ofError err)
  | .ok none => ∃ left, run = .ok (none, base ++ left)
  | .ok (some tag) => tag.name = name ∧ (tag.site.map fun _ => base.length) = site ∧
      run = .ok (some (tag.selfClosing, offset text tag.stop),
        tagTable text base tag.site tag.inner)

section Walk

variable {scan : Scan} {inner : InnerScan} {flavor : Flavor} {name : List Char}
  {base table : List Site} {site : Option Nat} {st : TagState}

/-- A turn keeps what has been read by bytes and by characters together; how the walk goes on is
left to `hgo`. -/
theorem tagTurns_step (hscan : Agrees text scan inner) (hr : Reading text base site table st)
    (h : Span text n e (c :: s)) (hspace : Text.isSpace c = false) {i : Nat}
    (hi : i ≤ offset text n) (hend : spaceEnd text i (offset text e) = .ok (offset text n))
    (hgo : ∀ (st' : TagState) (table' : List Site) (k : Nat),
      Reading text base site table' st' →
      TagMatches text base name site
        (tagTurns text scan flavor site (offset text e) table' (offset text (n + 1 + k)))
        (tagWalk flavor inner name st' (n + 1) k s)) :
    TagMatches text base name site (tagTurns text scan flavor site (offset text e) table i)
      (tagWalk flavor inner name st n 0 (c :: s)) := by
  have hto : i < offset text e := Nat.lt_of_le_of_lt hi (offset_lt_iff.2 h.lt)
  have hturn : tagTurn text scan flavor site (offset text e) table i =
      partTurn text scan flavor site table n (tagPart flavor c s) := by
    rw [tagTurn, hend, ok_bind, tagPartTurn_eq h hspace]
  -- The parts that do not end the tag share this: one turn, and `hgo` for the rest.
  have hnext : ∀ (st' : TagState) (table' : List Site) (k : Nat),
      Reading text base site table' st' →
      tagTurn text scan flavor site (offset text e) table i =
        .ok (.next table' (offset text (n + 1 + k))) →
      TagMatches text base name site (tagTurns text scan flavor site (offset text e) table i)
        (tagWalk flavor inner name st' (n + 1) k s) := by
    intro st' table' k hr' hturn'
    have hlt : i < offset text (n + 1 + k) := Nat.lt_of_le_of_lt hi (offset_lt_iff.2 (by omega))
    rw [tagTurns, loop_next hto hturn' hlt]
    exact hgo st' table' k hr'
  rw [tagWalk]
  split
  · next selfClosing length hpart =>
    obtain ⟨hsite, htable, -⟩ := hr
    rw [hpart, partTurn, htable] at hturn
    rw [htable]
    exact ⟨rfl, hsite.symm, loop_done hto hturn⟩
  · next hpart =>
    obtain ⟨-, htable, -⟩ := hr
    rw [hpart, partTurn, htable] at hturn
    rw [htable]
    exact ⟨_, loop_done hto hturn⟩
  · next skip hpart =>
    rw [hpart] at hturn
    exact hnext st table skip hr hturn
  · next skip hpart =>
    obtain ⟨table', hspread, hr'⟩ := hr.spread
    rw [hpart, partTurn, hspread] at hturn
    exact hnext _ table' skip hr' hturn
  · next a hpart =>
    have hpos := attribute_length_pos hpart
    have hlength : n + 1 + (a.length - 1) = n + a.length := by omega
    rw [hpart, partTurn] at hturn
    obtain ⟨err, hadd, hread⟩ | ⟨st', table', hadd, hread, hr'⟩ :=
      hr.attribute hscan h (readAttribute?_of_tagPart hpart)
    · rw [hadd]
      exact loop_error hto (hturn.trans hread)
    · rw [hadd]
      refine hnext st' table' (a.length - 1) hr' ?_
      rw [hlength]
      exact hturn.trans hread

/-- **Attributes of a tag.** The loop over them on bytes agrees with the walk on characters. -/
theorem tagTurns_eq (hscan : Agrees text scan inner) (hr : Reading text base site table st)
    (h : Span text n e s) :
    TagMatches text base name site
      (tagTurns text scan flavor site (offset text e) table (offset text n))
      (tagWalk flavor inner name st n 0 s) := by
  induction hlen : s.length using Nat.strongRecOn generalizing n s st table with
  | _ len ih =>
  have hle : spaceLength s ≤ s.length := (List.takeWhile_sublist _).length_le
  have hrest := h.drop hle
  rw [drop_spaceLength] at hrest
  rw [tagWalk_skipSpace]
  cases hs : skipSpace s with
  | nil =>
    -- Only separators are left, and the walk ends at the end of the region.
    rw [hs] at hrest
    obtain rfl : e = n + spaceLength s := hrest.stop_eq
    obtain ⟨-, rfl, -⟩ := hr
    by_cases hlt : offset text n < offset text (n + spaceLength s)
    · have hturn : tagTurn text scan flavor site (offset text (n + spaceLength s))
          (tagTable text base st.site st.inner) (offset text n) =
            .ok (.done (none, tagTable text base st.site st.inner)) := by
        rw [tagTurn, spaceEnd_eq h, ok_bind]
        exact tagPartTurn_end hrest
      exact ⟨_, loop_done hlt hturn⟩
    · exact ⟨_, loop_finish (Nat.le_of_not_lt hlt)⟩
  | cons c t =>
    rw [hs] at hrest
    have hspace : Text.isSpace c = false := by
      have hhead := List.head?_dropWhile_not Text.isSpace s
      rw [← skipSpace, hs] at hhead
      simpa using hhead
    refine tagTurns_step hscan hr hrest hspace (offset_le_iff.2 (Nat.le_add_right _ _))
      (spaceEnd_eq h) fun st table k hr => ?_
    rw [tagWalk_drop]
    by_cases hk : k ≤ t.length
    · refine ih (t.drop k).length ?_ hr (hrest.tail.drop hk) rfl
      have hlength := congrArg List.length hs
      rw [skipSpace, ← drop_length_takeWhile, List.length_drop, List.length_cons] at hlength
      rw [List.length_drop]
      omega
    · rw [List.drop_eq_nil_of_le (Nat.le_of_not_le hk), tagWalk]
      have hstop := hrest.tail.stop_eq
      obtain ⟨-, rfl, -⟩ := hr
      exact ⟨_, loop_finish (offset_le_iff.2 (by omega))⟩

end Walk

/-! ### Whole tags -/

/-- A start tag. -/
structure Tag where
  name : List Char
  /-- The index of its site. -/
  site : Option Nat
  selfClosing : Bool
  /-- The byte after it. -/
  stop : Nat

/-- Whether the name of a tag may end at `i`. -/
def nameEnds (text : List Char) (i bound : Nat) : Checked Bool :=
  if i < bound then do
    let u ← byteAt text i
    return u = '/' || u = '>' || Text.isSpace u
  else return true

/-- Adds the site of a tag whose name is a component name. -/
def pushTag (settings : ScanSettings) (table : List Site) (name : List Char) (lt : Nat) :
    Checked (Option Nat × List Site) :=
  match canonicalName? settings.marker name with
  | none => return (none, table)
  | some canonical => return (some table.length, ← push settings table name canonical lt)

/-- The tag of the given name. When its attributes come to no end, the table is cut back to what it
was. -/
def readNamed (settings : ScanSettings) (text : List Char) (scan : Scan) (flavor : Flavor)
    (table : List Site) (name : List Char) (lt nameEnd bound : Nat) :
    Checked (Option Tag × List Site) := do
  let (site, pushed) ← pushTag settings table name lt
  match ← tagTurns text scan flavor site bound pushed nameEnd with
  | (none, after) => return (none, after.take table.length)
  | (some (selfClosing, stop), after) => return (some ⟨name, site, selfClosing, stop⟩, after)

/-- The start tag whose `<` is at `lt`, if it is one. -/
def readTag (settings : ScanSettings) (text : List Char) (scan : Scan) (flavor : Flavor)
    (table : List Site) (lt bound : Nat) : Checked (Option Tag × List Site) :=
  if bound ≤ lt + 1 then return (none, table)
  else do
    let u ← byteAt text (lt + 1)
    if u = '>' && flavor = .jsx then return (some ⟨[], none, false, lt + 2⟩, table)
    else if !u.isAlpha then return (none, table)
    else
      let nameEnd ← passWhile isTagChar text (lt + 1) bound
      if !(← nameEnds text nameEnd bound) then return (none, table)
      else
        let name ← slice text (lt + 1) nameEnd
        readNamed settings text scan flavor table name lt nameEnd bound

private theorem nameEnds_eq (h : Span text n e s) :
    nameEnds text (offset text n) (offset text e) = .ok (endsTagName s) := by
  cases s with
  | nil =>
    obtain rfl : e = n := h.stop_eq
    simp [nameEnds, endsTagName]
  | cons c s =>
    simp [nameEnds, endsTagName, h.lt, h.byteAt_lead, lead_eq_iff, asciiOnly_isSpace.lead]

private theorem pushTag_eq (settings : ScanSettings) (table : List Site) (name : List Char)
    (n : Nat) :
    pushTag settings table name (offset text n) =
      lift ((tagSite settings table.length name n).map fun site =>
        (site.map fun _ => table.length, tagTable text table site [])) := by
  rw [pushTag, tagSite]
  cases canonicalName? settings.marker name with
  | none => simp [Except.map, tagTable]
  | some canonical =>
    simp only [push_eq]
    cases newSite settings table.length name canonical n <;> rfl

/-- A start tag by bytes, and the table after it. -/
def tagRead (text : List Char) (table : List Site) :
    Option ComponentAudit.Tag → Option Tag × List Site
  | none => (none, table)
  | some tag => (some ⟨tag.name, tag.site.map fun _ => table.length, tag.selfClosing,
      offset text tag.stop⟩, tagTable text table tag.site tag.inner)

/-- A tag is read alike on both sides from the end of its name on. -/
theorem readNamed_eq {scan : Scan} {inner : InnerScan} (hscan : Agrees text scan inner)
    (settings : ScanSettings) (flavor : Flavor) (table : List Site) (name : List Char) (start : Nat)
    (h : Span text n e s) :
    readNamed settings text scan flavor table name (offset text start) (offset text n)
        (offset text e) =
      lift ((match tagSite settings table.length name start with
        | .error err => Except.error err
        | .ok site =>
          tagWalk flavor inner name ⟨site, [], table.length + site.toList.length⟩ n 0 s).map
        (tagRead text table)) := by
  rw [readNamed, pushTag_eq]
  cases tagSite settings table.length name start with
  | error err => rfl
  | ok site =>
    have hr : Reading text table (site.map fun _ => table.length) (tagTable text table site [])
        ⟨site, [], table.length + site.toList.length⟩ := ⟨rfl, rfl, by simp [tagTable]⟩
    have hrun := @tagTurns_eq text s n e scan inner flavor name table _ _ _ hscan hr h
    simp only [Except.map, lift_ok, ok_bind]
    revert hrun
    cases tagWalk flavor inner name ⟨site, [], table.length + site.toList.length⟩ n 0 s with
    | error err =>
      intro hrun
      rw [show _ = _ from hrun]
      rfl
    | ok tag? =>
      cases tag? with
      | none =>
        rintro ⟨left, hrun⟩
        rw [hrun]
        simp [tagRead]
      | some tag =>
        rintro ⟨rfl, hsite, hrun⟩
        rw [hrun, ← hsite]
        rfl

/-- By bytes and by characters the same start tags are read. -/
theorem readTag_eq {scan : Scan} {inner : InnerScan} (hscan : Agrees text scan inner)
    (settings : ScanSettings) (flavor : Flavor) (table : List Site)
    (h : Span text n e ('<' :: s)) :
    readTag settings text scan flavor table (offset text n) (offset text e) =
      lift ((ComponentAudit.readTag settings flavor inner table.length n s).map
        (tagRead text table)) := by
  have hlt := h.offset_succ_of_lt (by decide)
  cases s with
  | nil =>
    obtain rfl : e = n + 1 := h.stop_eq
    rw [readTag, hlt, if_pos (Nat.le_refl _)]
    rfl
  | cons c s =>
    have hname := h.tail
    rw [readTag, hlt, if_neg (Nat.not_le_of_lt (offset_lt_iff.2 hname.lt)), hname.byteAt_lead,
      ok_bind, ComponentAudit.readTag]
    have hfragment : (decide (lead c = '>') && decide (flavor = .jsx)) =
        (decide (c = '>') && decide (flavor = .jsx)) := by simp [lead_eq_iff]
    rw [hfragment, asciiOnly_isAlpha.lead]
    by_cases hgt : (decide (c = '>') && decide (flavor = .jsx)) = true
    · rw [if_pos hgt, if_pos hgt]
      obtain ⟨rfl, -⟩ : c = '>' ∧ flavor = .jsx := by simpa using hgt
      have hstop : offset text n + 2 = offset text (n + 2) := by
        rw [← hname.offset_succ_of_lt (by decide), ← hlt]
      rw [hstop]
      simp [Except.map, tagRead, tagTable]
    rw [if_neg hgt, if_neg hgt]
    by_cases halpha : (!c.isAlpha) = true
    · rw [if_pos halpha, if_pos halpha]
      rfl
    -- From here on it is a tag with a name, unless the name runs into some other character.
    have hle : ((c :: s).takeWhile isTagChar).length ≤ (c :: s).length :=
      (List.takeWhile_sublist _).length_le
    have hrest := hname.drop hle
    have hword := hname.take hle
    rw [take_length_takeWhile] at hword
    rw [if_neg halpha, if_neg halpha, passWhile_eq asciiOnly_isTagChar hname, ok_bind,
      nameEnds_eq hrest, ok_bind, hword.slice_eq, ok_bind]
    dsimp only
    generalize (c :: s).takeWhile isTagChar = name at *
    generalize (c :: s).drop name.length = rest at *
    cases endsTagName rest with
    | false => rfl
    | true => exact readNamed_eq hscan settings flavor table name n hrest

/-! ### The end of a tag -/

private theorem exists_gt_of_tagPart {flavor : Flavor} {selfClosing : Bool} {length : Nat}
    (h : tagPart flavor c s = .close selfClosing length) :
    ∃ pre post, c :: s = pre ++ '>' :: post ∧ length = pre.length + 1 := by
  have hclose : (c = '/' ∧ s.head? = some '>' ∧ length = 2) ∨ (c = '>' ∧ length = 1) := by
    grind [tagPart]
  rcases hclose with ⟨rfl, hhead, rfl⟩ | ⟨rfl, rfl⟩
  · obtain ⟨t, rfl⟩ := List.head?_eq_some_iff.1 hhead
    exact ⟨['/'], t, rfl, rfl⟩
  · exact ⟨[], s, rfl, rfl⟩

/-- A start tag ends behind a `>`. -/
theorem exists_gt_of_tagWalk {flavor : Flavor} {inner : InnerScan} {name : List Char}
    {st : TagState} {place skip : Nat} {tag : ComponentAudit.Tag}
    (h : tagWalk flavor inner name st place skip s = .ok (some tag)) :
    ∃ pre post, s = pre ++ '>' :: post ∧ tag.stop = place + pre.length + 1 := by
  induction s generalizing st place skip with
  | nil => cases skip <;> cases h
  | cons c s ih =>
    have hnext : ∀ {st : TagState} {k : Nat},
        tagWalk flavor inner name st (place + 1) k s = .ok (some tag) →
        ∃ pre post, c :: s = pre ++ '>' :: post ∧ tag.stop = place + pre.length + 1 := fun h => by
      obtain ⟨pre, post, rfl, hstop⟩ := ih h
      exact ⟨c :: pre, post, rfl, by rw [hstop, List.length_cons]; omega⟩
    cases skip with
    | succ k => exact hnext h
    | zero =>
      rw [tagWalk] at h
      split at h
      · next hpart =>
        cases h
        obtain ⟨pre, post, hs, rfl⟩ := exists_gt_of_tagPart hpart
        exact ⟨pre, post, hs, rfl⟩
      · cases h
      · exact hnext h
      · exact hnext h
      · split at h
        · cases h
        · exact hnext h

/-- A start tag ends with a `>`. -/
theorem exists_gt_of_readTag {settings : ScanSettings} {flavor : Flavor} {inner : InnerScan}
    {count : Nat} {tag : ComponentAudit.Tag}
    (h : ComponentAudit.readTag settings flavor inner count n s = .ok (some tag)) :
    ∃ pre post, s = pre ++ '>' :: post ∧ tag.stop = n + 1 + pre.length + 1 := by
  cases s with
  | nil => cases h
  | cons c s =>
    rw [ComponentAudit.readTag] at h
    split at h
    · next hc =>
      cases h
      obtain ⟨rfl, -⟩ : c = '>' ∧ flavor = .jsx := by simpa using hc
      exact ⟨[], s, rfl, rfl⟩
    split at h
    · cases h
    dsimp only at h
    split at h
    · cases h
    split at h
    · cases h
    obtain ⟨pre, post, hs, hstop⟩ := exists_gt_of_tagWalk h
    refine ⟨(c :: s).takeWhile isTagChar ++ pre, post, ?_, ?_⟩
    · rw [List.append_assoc, ← hs, drop_length_takeWhile, List.takeWhile_append_dropWhile]
    · rw [hstop, List.length_append]
      omega

end ComponentAudit.Offset
