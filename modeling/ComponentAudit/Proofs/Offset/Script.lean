import ComponentAudit.Proofs.Offset.Call
import ComponentAudit.Proofs.Offset.Frame

/-!
# Script code by byte offsets

The scan of a region of code by bytes. Among the children of an element it goes byte by byte, so it
passes through the inside of characters there; in code a character beyond ASCII belongs to an
identifier.

`scriptLoop_step` compares one turn with the step at a character, `scriptLoop_eq` whole regions, and
`scanScript_agrees` the scans with all their levels.
-/

namespace ComponentAudit.Offset

open Script

variable {text s before : List Char} {n e f : Nat} {c : Char}

/-! ### Turns -/

/-- What a scan of code is inside of, innermost first, and the table of sites. -/
abbrev ModeState := List Mode × List Site

/-- What is the same all through the scan of a region by bytes. -/
structure ScriptRun where
  settings : ScanSettings
  text : List Char
  /-- Whether tags are recognized. -/
  jsx : Bool
  /-- The scan of an attribute expression. -/
  scan : Scan
  /-- The first byte of the region. -/
  lo : Nat
  /-- The byte after the region. -/
  bound : Nat

/-- The turn at a `<` that may open an element. -/
def openTurn (r : ScriptRun) (st : ModeState) (i : Nat) : Checked (Turn ModeState ModeState) := do
  let (tag?, table) ← readTag r.settings r.text r.scan .jsx st.2 i r.bound
  match tag? with
  | none => return .next (st.1, table) (i + 1)
  | some tag =>
    if tag.selfClosing then
      let ended ← onSite tag.site table fun j => updateAt table j (·.endingAt tag.stop)
      return .next (st.1, ended) tag.stop
    else return .next (.children tag.name tag.site :: st.1, table) tag.stop

/-- The turn at a `</`. -/
def closeTurn (r : ScriptRun) (st : ModeState) (i : Nat) : Checked (Turn ModeState ModeState) := do
  let nameStart ← spaceEnd r.text (i + 2) r.bound
  let nameEnd ← passWhile isTagChar r.text nameStart r.bound
  let gt ← spaceEnd r.text nameEnd r.bound
  if ← isAt r.text '>' gt r.bound then
    let name ← slice r.text nameStart nameEnd
    match closing? name st.1 with
    | none => return .next st (gt + 1)
    | some (closed, modes) => return .next (modes, ← endAll (gt + 1) closed st.2) (gt + 1)
  else return .next st (i + 1)

/-- The turn at the byte `u` among the children of an element. -/
def childrenTurn (r : ScriptRun) (st : ModeState) (u : Char) (i : Nat) :
    Checked (Turn ModeState ModeState) := do
  if u = '\x7b' then return .next (.code 0 :: st.1, st.2) (i + 1)
  else if u = '<' then
    if ← isAt r.text '/' (i + 1) r.bound then closeTurn r st i else openTurn r st i
  else return .next st (i + 1)

/-- Whether a dot stands just before `i`. -/
def followsDot (text : List Char) (i : Nat) : Checked Bool :=
  if 0 < i then return (← byteAt text (i - 1)) = '.' else return false

/-- The turn at an identifier. -/
def identTurn (r : ScriptRun) (st : ModeState) (i : Nat) : Checked (Turn ModeState ModeState) := do
  let j ← pathEnd r.text i r.bound
  let path ← slice r.text i j
  if elementFactories.contains path then
    if ← followsDot r.text i then return .next st j
    else return .next (st.1, ← callAt r.settings r.text st.2 i j r.bound) j
  else return .next st j

/-- Whether the `<` at `i` begins a tag, if one may start there. -/
def tagMayFollow (text : List Char) (i bound : Nat) : Checked Bool :=
  if i + 1 < bound then do
    let u ← byteAt text (i + 1)
    return u.isAlpha || u = '>'
  else return false

/-- Whether the byte `u` at `i` opens an element in code. -/
def opensElement (r : ScriptRun) (u : Char) (i : Nat) : Checked Bool := do
  if u = '<' && r.jsx then
    if ← tagMayFollow r.text i r.bound then mayStart r.text r.lo i else return false
  else return false

/-- The end of the comment or regular expression at `i`. -/
def skippedEnd? (r : ScriptRun) (i : Nat) : Checked (Option Nat) := do
  match ← commentEnd? r.text i r.bound with
  | some j => return some j
  | none => regexEnd? r.text r.lo i r.bound

/-- The turn at the byte `u` in code. -/
def scriptCodeTurn (r : ScriptRun) (st : ModeState) (u : Char) (i : Nat) :
    Checked (Turn ModeState ModeState) := do
  match ← skippedEnd? r i with
  | some j => return .next st j
  | none =>
    if u = '\'' || u = '"' then return .next st (← stringEnd r.text i r.bound)
    else if u = '`' then
      match ← closeOffset? r.text i r.bound with
      | some close => return .next st (close + 1)
      | none => return .next st r.bound
    else if u = '\x7b' then return .next (pushBrace st.1, st.2) (i + 1)
    else if u = '\x7d' then return .next (popBrace st.1, st.2) (i + 1)
    else if ← opensElement r u i then openTurn r st i
    else if isIdentStart u then identTurn r st i
    else return .next st (i + 1)

/-- A turn of the scan. -/
def scriptTurn (r : ScriptRun) (st : ModeState) (i : Nat) : Checked (Turn ModeState ModeState) := do
  let u ← byteAt r.text i
  match st.1 with
  | .children _ _ :: _ => childrenTurn r st u i
  | _ => scriptCodeTurn r st u i

/-- The turns from `i` to the end of the region. -/
def scriptLoop (r : ScriptRun) (st : ModeState) (i : Nat) : Checked ModeState :=
  loop r.bound (scriptTurn r) (fun st _ => st) st i

/-- Scans a region with the given scan for attribute expressions. -/
def scanRegion (settings : ScanSettings) (text : List Char) (jsx : Bool) (scan : Scan) : Scan :=
  fun table lo bound => do
    let (modes, table) ← scriptLoop ⟨settings, text, jsx, scan, lo, bound⟩ ([.code 0], table) lo
    endAll bound modes table

/-- Scans a region of code. Attribute expressions are scanned inside each other down to the given
number of levels. -/
def scanScript (settings : ScanSettings) (text : List Char) : (levels : Nat) → (jsx : Bool) → Scan
  | 0, jsx => scanRegion settings text jsx fun table _ _ => return table
  | levels + 1, jsx => scanRegion settings text jsx (scanScript settings text levels true)

/-! ### Steps -/

/-- What a turn of the scan comes to, given what the step at the character comes to. -/
def StepMatches (r : ScriptRun) (base : List Site) (st : ModeState) (n : Nat) :
    ScriptStep → Prop
  | .error err => scriptLoop r st (offset r.text n) = .error (.ofError err)
  | .ok (skip, st') => ∃ modes table, Mirrors r.text base modes table st' ∧
      scriptLoop r st (offset r.text n) =
        scriptLoop r (modes, table) (offset r.text (n + 1 + skip))

private theorem followsDot_eq {d : Option Char} (h : Precedes text n d) :
    followsDot text (offset text n) = .ok (d = some '.') := by
  cases d with
  | none =>
    obtain rfl : n = 0 := h
    simp [followsDot]
  | some d =>
    obtain ⟨m, rfl, hd⟩ := h
    have hpos : 0 < offset text (m + 1) :=
      Nat.lt_of_le_of_lt (Nat.zero_le _) (offset_lt_succ text m)
    simp [followsDot, hpos, hd.byteAt_trail, trail_eq_iff]

private theorem tagMayFollow_eq (h : Span text n e ('<' :: s)) :
    tagMayFollow text (offset text n) (offset text e) = .ok (tagMayStart s) := by
  rw [tagMayFollow, h.offset_succ_of_lt (by decide)]
  cases s with
  | nil =>
    obtain rfl : e = n + 1 := h.tail.stop_eq
    simp [tagMayStart]
  | cons d s =>
    simp [tagMayStart, h.tail.lt, h.tail.byteAt_lead, lead_eq_iff, asciiOnly_isAlpha.lead]

/-- A scan of the region from `f` to `e` by bytes, and the same by characters. -/
structure Runs (r : ScriptRun) (x : ScriptScan) (f e : Nat) : Prop where
  settings_eq : r.settings = x.settings
  jsx_eq : r.jsx = x.jsx
  agrees : Agrees r.text r.scan x.scan
  lo_eq : r.lo = offset r.text f
  bound_eq : r.bound = offset r.text e
  lead : Precedes r.text f x.lead

section Steps

variable {r : ScriptRun} {x : ScriptScan} {base table : List Site} {modes : List Mode}
  {st st' : ScriptState}

/-- A turn that proceeds as the step does. -/
theorem StepMatches.next (hr : Runs r x f e) (hn : n < e) {modes' : List Mode} {table' : List Site}
    {skip : Nat} (hm : Mirrors r.text base modes' table' st')
    (hturn : scriptTurn r (modes, table) (offset r.text n) =
      .ok (.next (modes', table') (offset r.text (n + 1 + skip)))) :
    StepMatches r base (modes, table) n (.ok (skip, st')) := by
  refine ⟨modes', table', hm, loop_next ?_ hturn (offset_lt_iff.2 (by omega))⟩
  rw [hr.bound_eq]
  exact offset_lt_iff.2 hn

/-- A turn that fails as the step does. -/
theorem StepMatches.error (hr : Runs r x f e) (hn : n < e) {err : ExtractError}
    (hturn : scriptTurn r (modes, table) (offset r.text n) = .error (.ofError err)) :
    StepMatches r base (modes, table) n (.error err) := by
  refine loop_error ?_ hturn
  rw [hr.bound_eq]
  exact offset_lt_iff.2 hn

/-- The site of an element that ends with its tag. -/
theorem onSite_endingAt (tag : ComponentAudit.Tag) (table : List Site) :
    (onSite (tag.site.map fun _ => table.length) (tagTable text table tag.site tag.inner) fun j =>
      updateAt (tagTable text table tag.site tag.inner) j (·.endingAt (offset text tag.stop))) =
        .ok (table ++ recorded text (tag.sites tag.stop)) := by
  cases hsite : tag.site with
  | none => simp [onSite, tagTable, Tag.sites, hsite]
  | some s =>
    simp only [Option.map_some, onSite, tagTable_some, updateAt_append]
    simp [Tag.sites, hsite, inBytes_endingAt]

/-- A turn at a `<` where a tag may begin. -/
theorem openStep_matches (hr : Runs r x f e) (hm : Mirrors r.text base modes table st)
    (h : Span r.text n e ('<' :: s))
    (hturn : scriptTurn r (modes, table) (offset r.text n) =
      openTurn r (modes, table) (offset r.text n)) :
    StepMatches r base (modes, table) n (openStep x st n s) := by
  rw [openTurn, hr.bound_eq, readTag_eq hr.agrees r.settings .jsx table h, hr.settings_eq,
    ← hm.count_eq] at hturn
  rw [openStep]
  cases hread : ComponentAudit.readTag x.settings .jsx x.scan st.count n s with
  | error err =>
    rw [hread] at hturn
    exact .error hr h.lt hturn
  | ok tag? =>
    rw [hread] at hturn
    cases tag? with
    | none =>
      refine .next hr h.lt hm ?_
      rw [hturn, Nat.add_zero, ← h.offset_succ_of_lt (by decide)]
      rfl
    | some tag =>
      obtain ⟨pre, post, -, hgt⟩ := exists_gt_of_readTag hread
      have hstop : n + 1 + (tag.stop - (n + 1)) = tag.stop := by omega
      simp only [Except.map, tagRead, lift_ok, ok_bind] at hturn ⊢
      cases hself : tag.selfClosing with
      | true =>
        rw [hself, if_pos rfl] at hturn
        refine .next hr h.lt (hm.record (tag.sites tag.stop)) ?_
        rw [hturn, onSite_endingAt, hstop]
        rfl
      | false =>
        rw [hself] at hturn
        refine .next hr h.lt (hm.openElement tag.name tag.site tag.inner tag.stop) ?_
        rw [hturn, hstop]
        rfl

/-- A turn at a closing tag. -/
theorem closeStep_matches (hr : Runs r x f e) (hm : Mirrors r.text base modes table st)
    (h : Span r.text n e ('<' :: '/' :: s))
    (hturn : scriptTurn r (modes, table) (offset r.text n) =
      closeTurn r (modes, table) (offset r.text n)) :
    StepMatches r base (modes, table) n (.ok (closeStep st n ('/' :: s))) := by
  have hstart : offset r.text n + 2 = offset r.text (n + 2) := by
    rw [← h.tail.offset_succ_of_lt (by decide), ← h.offset_succ_of_lt (by decide)]
  have hname := h.tail.tail.skipSpace
  have hle : ((skipSpace s).takeWhile isTagChar).length ≤ (skipSpace s).length :=
    (List.takeWhile_sublist _).length_le
  have hword := hname.take hle
  have hafter := hname.drop hle
  rw [take_length_takeWhile] at hword
  rw [closeTurn, hr.bound_eq, hstart, spaceEnd_eq h.tail.tail, ok_bind,
    passWhile_eq asciiOnly_isTagChar hname, ok_bind, spaceEnd_eq hafter, ok_bind,
    isAt_eq (by decide) hafter.skipSpace, ok_bind, hword.slice_eq, ok_bind] at hturn
  simp only [closeStep, List.drop_succ_cons, List.drop_zero]
  generalize (skipSpace s).takeWhile isTagChar = name at *
  generalize (skipSpace s).drop name.length = rest at *
  -- Here the `>` has to follow the name, up to blanks; in markup the next one is taken.
  split
  · next t ht =>
    have hgt := hafter.skipSpace
    rw [ht] at hgt
    have hstop : n + 1 + (1 + spaceLength s + name.length + spaceLength rest + 1) =
        n + 1 + 1 + spaceLength s + name.length + spaceLength rest + 1 := by omega
    rw [ht, List.head?_cons, if_pos (decide_eq_true rfl), hgt.offset_succ_of_lt (by decide),
      ← hstop] at hturn
    have hclose := hm.close name (n + 1 + (1 + spaceLength s + name.length + spaceLength rest + 1))
    cases helements : closeElements? name
        (n + 1 + (1 + spaceLength s + name.length + spaceLength rest + 1)) st.frames with
    | none =>
      rw [helements] at hclose
      rw [show _ = _ from hclose] at hturn
      exact .next hr h.lt hm hturn
    | some closed =>
      obtain ⟨sites, frames⟩ := closed
      rw [helements] at hclose
      obtain ⟨closed, modes', table', hclosing, hend, hm'⟩ := hclose
      rw [hclosing] at hturn
      refine .next hr h.lt hm' ?_
      rw [hturn]
      simp only [hend]
      rfl
  · next hne =>
    have hhead : (skipSpace rest).head? ≠ some '>' := fun hhead => by
      obtain ⟨t, ht⟩ := List.head?_eq_some_iff.1 hhead
      exact hne t ht
    refine .next hr h.lt hm ?_
    rw [hturn, Nat.add_zero, ← h.offset_succ_of_lt (by decide)]
    simp [hhead]

/-- A turn among the children of an element does what the step at the character does. -/
theorem childrenStep_matches (hr : Runs r x f e) (hm : Mirrors r.text base modes table st)
    {tag : List Char} {site : Option Nat} {outer : List Mode}
    (hmodes : modes = .children tag site :: outer) (h : Span r.text n e (c :: s)) :
    StepMatches r base (modes, table) n (childrenStep x st n c s) := by
  have hturn : ∀ i u, byteAt r.text i = .ok u →
      scriptTurn r (modes, table) i = childrenTurn r (modes, table) u i := by
    intro i u hu
    rw [scriptTurn, hu, hmodes]
    rfl
  have hhere := hturn _ _ h.byteAt_lead
  rw [childrenStep]
  by_cases hbrace : c = '\x7b'
  · subst hbrace
    rw [if_pos rfl]
    refine .next hr h.lt hm.enter ?_
    rw [hhere, childrenTurn, if_pos ((lead_eq_iff (by decide)).2 rfl), Nat.add_zero,
      ← h.offset_succ_of_lt (by decide)]
    rfl
  rw [if_neg hbrace]
  rw [childrenTurn, if_neg fun hu => hbrace ((lead_eq_iff (by decide)).1 hu)] at hhere
  by_cases hlt : c = '<'
  · subst hlt
    rw [if_pos rfl]
    rw [if_pos ((lead_eq_iff (by decide)).2 rfl), h.offset_succ_of_lt (by decide), hr.bound_eq,
      isAt_eq (by decide) h.tail, ok_bind] at hhere
    by_cases hslash : s.head? = some '/'
    · obtain ⟨t, rfl⟩ := List.head?_eq_some_iff.1 hslash
      exact closeStep_matches hr hm h hhere
    · rw [if_neg hslash]
      rw [if_neg (by simpa using hslash)] at hhere
      exact openStep_matches hr hm h hhere
  · rw [if_neg hlt]
    rw [if_neg fun hu => hlt ((lead_eq_iff (by decide)).1 hu)] at hhere
    refine ⟨modes, table, hm, ?_⟩
    have hto : offset r.text n < r.bound := by
      rw [hr.bound_eq]
      exact offset_lt_iff.2 h.lt
    rw [scriptLoop, loop_next hto hhere (Nat.lt_succ_self _), Nat.add_zero]
    -- The other bytes of the character are passed one by one.
    refine h.loop_succ_of_le ?_ fun _ i u hu hle => ?_
    · rw [hr.bound_eq]
      exact offset_le_iff.2 h.lt
    · rw [hturn i u hu, childrenTurn, if_neg (ne_of_le (by decide) hle),
        if_neg (ne_of_le (by decide) hle)]
      rfl

private theorem Precedes.of_before {lead : Option Char} (hlead : Precedes text f lead)
    (hbefore : Span text f n before.reverse) : Precedes text n (before.head?.or lead) := by
  cases before with
  | nil =>
    obtain rfl : n = f := hbefore.stop_eq
    exact hlead
  | cons d before =>
    rw [List.reverse_cons] at hbefore
    obtain ⟨m, rfl, -, hd⟩ := hbefore.unsnoc
    exact ⟨m, rfl, hd⟩

/-- What may begin an identifier may continue one. -/
theorem isIdentChar_of_isIdentStart (h : isIdentStart c = true) : isIdentChar c = true := by
  simp [isIdentChar, h]

/-- A turn at an identifier. -/
theorem identStep_matches (hr : Runs r x f e) (hm : Mirrors r.text base modes table st)
    (hbefore : Span r.text f n before.reverse) (h : Span r.text n e (c :: s))
    (hc : isIdentStart c = true)
    (hturn : scriptTurn r (modes, table) (offset r.text n) =
      identTurn r (modes, table) (offset r.text n)) :
    StepMatches r base (modes, table) n (identStep x st n before c s) := by
  have hle := pathLength_le (c :: s)
  have hpos : 0 < pathLength (c :: s) := by
    rw [pathLength, if_pos (isIdentChar_of_isIdentStart hc)]
    exact Nat.succ_pos _
  have hstop : n + 1 + (pathLength (c :: s) - 1) = n + pathLength (c :: s) := by omega
  have hnext : ∀ {table' : List Site} {st' : ScriptState}, Mirrors r.text base modes table' st' →
      scriptTurn r (modes, table) (offset r.text n) =
        .ok (.next (modes, table') (offset r.text (n + pathLength (c :: s)))) →
      StepMatches r base (modes, table) n (.ok (pathLength (c :: s) - 1, st')) :=
    fun hm hturn => .next hr h.lt hm (by rw [hturn, hstop])
  rw [identTurn, hr.bound_eq, pathEnd_eq h, ok_bind, (h.take hle).slice_eq, ok_bind,
    followsDot_eq (hr.lead.of_before hbefore), ok_bind, callAt_eq _ _ _ (h.drop hle),
    hr.settings_eq, ← hm.count_eq] at hturn
  rw [identStep]
  -- Whether or not a call is read, the scan goes on behind the path: the arguments are scanned too.
  cases hfactory : elementFactories.contains ((c :: s).take (pathLength (c :: s))) with
  | false =>
    rw [hfactory] at hturn
    exact hnext hm hturn
  | true =>
    rw [hfactory, if_pos rfl] at hturn
    by_cases hdot : before.head?.or x.lead = some '.'
    · rw [if_pos (decide_eq_true hdot)] at hturn
      rw [if_pos (by simp [hdot])]
      exact hnext hm hturn
    · rw [if_neg (by simpa using hdot)] at hturn
      rw [if_neg (by simpa using hdot)]
      cases hcall : ComponentAudit.callSite x.settings st.count n (n + pathLength (c :: s))
          ((c :: s).drop (pathLength (c :: s))) with
      | error err =>
        rw [hcall] at hturn
        exact .error hr h.lt hturn
      | ok site =>
        rw [hcall] at hturn
        cases site with
        | none => exact hnext hm (by simpa [Except.map] using hturn)
        | some site => exact hnext (hm.record [site]) hturn

private theorem opensElement_eq (hr : Runs r x f e) (hbefore : Span r.text f n before.reverse)
    (h : Span r.text n e (c :: s)) :
    opensElement r (Offset.lead c) (offset r.text n) =
      .ok (c = '<' && x.jsx && tagMayStart s && expressionMayStart before) := by
  by_cases hc : c = '<'
  · subst hc
    rw [opensElement, lead_of_lt (by decide), hr.jsx_eq, hr.bound_eq, hr.lo_eq, tagMayFollow_eq h,
      mayStart_eq hbefore]
    cases x.jsx <;> cases tagMayStart s <;> simp
  · simp [opensElement, lead_eq_iff, hc]

private theorem skippedEnd?_eq (hr : Runs r x f e) (hbefore : Span r.text f n before.reverse)
    (h : Span r.text n e (c :: s)) :
    skippedEnd? r (offset r.text n) =
      .ok (((commentLength? (c :: s)).or (regexLength? before (c :: s))).map fun k =>
        offset r.text (n + k)) := by
  rw [skippedEnd?, hr.bound_eq, hr.lo_eq, commentEnd?_eq h, regexEnd?_eq hbefore h, ok_bind]
  cases commentLength? (c :: s) <;> rfl

/-- A turn in code does what the step at the character does. -/
theorem scriptCodeStep_matches (hr : Runs r x f e) (hm : Mirrors r.text base modes table st)
    (hbefore : Span r.text f n before.reverse) (h : Span r.text n e (c :: s))
    (hturn : scriptTurn r (modes, table) (offset r.text n) =
      scriptCodeTurn r (modes, table) (Offset.lead c) (offset r.text n)) :
    StepMatches r base (modes, table) n (scriptCodeStep x st n before c s) := by
  rw [scriptCodeTurn, skippedEnd?_eq hr hbefore h, ok_bind] at hturn
  rw [scriptCodeStep]
  cases hskip : (commentLength? (c :: s)).or (regexLength? before (c :: s)) with
  | some k =>
    rw [hskip] at hturn
    have hpos : 0 < k := by
      rcases Option.or_eq_some_iff.1 hskip with hk | ⟨-, hk⟩
      · exact commentLength?_pos hk
      · exact regexLength?_pos hk
    refine .next hr h.lt hm ?_
    rw [hturn, show n + 1 + (k - 1) = n + k by omega]
    rfl
  | none =>
    rw [hskip] at hturn
    dsimp only [Option.map_none] at hturn ⊢
    by_cases hquote : c = '\'' ∨ c = '"'
    · rw [if_pos (by simpa [lead_eq_iff] using hquote), hr.bound_eq, stringEnd_eq h hquote] at hturn
      rw [if_pos (by simpa using hquote)]
      exact .next hr h.lt hm hturn
    rw [if_neg (by simpa [lead_eq_iff] using hquote)] at hturn
    rw [if_neg (by simpa using hquote)]
    by_cases htick : c = '`'
    · subst htick
      rw [if_pos ((lead_eq_iff (by decide)).2 rfl), hr.bound_eq, closeOffset?_eq h,
        ok_bind] at hturn
      rw [if_pos rfl]
      cases hk : closeLength? '`' s with
      | none =>
        rw [hk] at hturn
        refine .next hr h.lt hm ?_
        rw [hturn, h.tail.stop_eq]
        rfl
      | some k =>
        rw [hk] at hturn
        refine .next hr h.lt hm ?_
        rw [hturn, ← (h.offset_closer hk).2]
        rfl
    rw [if_neg fun hu => htick ((lead_eq_iff (by decide)).1 hu)] at hturn
    rw [if_neg htick]
    by_cases hopen : c = '\x7b'
    · subst hopen
      rw [if_pos ((lead_eq_iff (by decide)).2 rfl), h.offset_succ_of_lt (by decide)] at hturn
      rw [if_pos rfl]
      exact .next hr h.lt hm.openBrace hturn
    rw [if_neg fun hu => hopen ((lead_eq_iff (by decide)).1 hu)] at hturn
    rw [if_neg hopen]
    by_cases hclose : c = '\x7d'
    · subst hclose
      rw [if_pos ((lead_eq_iff (by decide)).2 rfl), h.offset_succ_of_lt (by decide)] at hturn
      rw [if_pos rfl]
      exact .next hr h.lt hm.closeBrace hturn
    rw [if_neg fun hu => hclose ((lead_eq_iff (by decide)).1 hu), opensElement_eq hr hbefore h,
      ok_bind] at hturn
    rw [if_neg hclose]
    by_cases htag : (decide (c = '<') && x.jsx && tagMayStart s && expressionMayStart before) = true
    · rw [if_pos htag] at hturn ⊢
      obtain rfl : c = '<' := by simp_all
      exact openStep_matches hr hm h hturn
    rw [if_neg htag, asciiOnly_isIdentStart.lead] at hturn
    rw [if_neg htag]
    by_cases hident : isIdentStart c = true
    · rw [if_pos hident] at hturn ⊢
      exact identStep_matches hr hm hbefore h hident hturn
    rw [if_neg hident] at hturn ⊢
    -- Every character beyond ASCII may begin an identifier.
    have hascii : c.toNat < 128 := Nat.lt_of_not_le fun hle => hident (isIdentStart_of_le hle)
    rw [h.offset_succ_of_lt hascii] at hturn
    exact .next hr h.lt hm hturn

/-- A turn of the scan does what the step at the character does. -/
theorem scriptLoop_step (hr : Runs r x f e) (hm : Mirrors r.text base modes table st)
    (hbefore : Span r.text f n before.reverse) (h : Span r.text n e (c :: s)) :
    StepMatches r base (modes, table) n (scriptStep x st n before c s) := by
  obtain ⟨frames, count⟩ := st
  have hmodes := hm.modes_eq
  have hcode : (∀ tag site outer, modes ≠ .children tag site :: outer) →
      scriptTurn r (modes, table) (offset r.text n) =
        scriptCodeTurn r (modes, table) (Offset.lead c) (offset r.text n) := by
    intro hne
    rw [scriptTurn, h.byteAt_lead, ok_bind]
    split
    · next tag site outer heq => exact absurd heq (hne tag site outer)
    · rfl
  match frames with
  | [] => exact hm.rooted.elim
  | .children _ _ _ :: _ => exact childrenStep_matches hr hm hmodes h
  | .code _ _ :: _ =>
    refine scriptCodeStep_matches hr hm hbefore h (hcode ?_)
    rintro tag site outer rfl
    cases hmodes

end Steps

/-! ### Regions -/

private theorem scriptWalk_drop (x : ScriptScan) (st : ScriptState) (place : Nat)
    (before : List Char) {skip : Nat} {s : List Char} (h : skip ≤ s.length) :
    scriptWalk x st place before skip s =
      scriptWalk x st (place + skip) ((s.take skip).reverse ++ before) 0 (s.drop skip) := by
  induction s generalizing place before skip with
  | nil =>
    obtain rfl : skip = 0 := Nat.le_zero.1 h
    rfl
  | cons c s ih =>
    cases skip with
    | zero => rfl
    | succ skip =>
      rw [scriptWalk, ih _ _ (Nat.le_of_succ_le_succ h), List.drop_succ_cons, List.take_succ_cons,
        List.reverse_cons, List.append_assoc, Nat.add_assoc, Nat.add_comm 1]
      rfl

private theorem scriptWalk_end (x : ScriptScan) (st : ScriptState) (place : Nat)
    (before : List Char) {skip : Nat} {s : List Char} (h : s.length ≤ skip) :
    scriptWalk x st place before skip s = .ok (closeAll (place + s.length) st.frames) := by
  induction s generalizing place before skip with
  | nil => cases skip <;> rfl
  | cons c s ih =>
    cases skip with
    | zero => cases h
    | succ skip =>
      rw [scriptWalk, ih _ _ (Nat.le_of_succ_le_succ h), List.length_cons, Nat.add_assoc,
        Nat.add_comm 1]

/-- From any state on, the two scans come to the same sites. -/
theorem scriptLoop_eq {r : ScriptRun} {x : ScriptScan} {base table : List Site} {modes : List Mode}
    {st : ScriptState} (hr : Runs r x f e) (hm : Mirrors r.text base modes table st)
    (hbefore : Span r.text f n before.reverse) (h : Span r.text n e s) :
    (scriptLoop r (modes, table) (offset r.text n) >>= fun (modes, table) =>
        endAll r.bound modes table) =
      lift ((scriptWalk x st n before 0 s).map fun found => base ++ recorded r.text found) := by
  -- At the end of the region everything is closed.
  have hfinish : ∀ {st : ScriptState} {modes : List Mode} {table : List Site} {i : Nat},
      Mirrors r.text base modes table st → r.bound ≤ i →
      (scriptLoop r (modes, table) i >>= fun (modes, table) => endAll r.bound modes table) =
        .ok (base ++ recorded r.text (closeAll e st.frames)) := by
    intro st modes table i hm hi
    have hend := @endAll_eq r.text e st.frames base []
    rw [scriptLoop, loop_finish hi, ok_bind, hr.bound_eq, hm.modes_eq, hm.table_eq]
    simpa using hend
  induction hlen : s.length using Nat.strongRecOn generalizing n s before st modes table with
  | _ len ih =>
  cases s with
  | nil =>
    obtain rfl : e = n := h.stop_eq
    exact hfinish hm (Nat.le_of_eq hr.bound_eq)
  | cons c s =>
    have hstep := scriptLoop_step hr hm hbefore h
    rw [scriptWalk]
    cases hs : scriptStep x st n before c s with
    | error err =>
      rw [hs] at hstep
      rw [show _ = _ from hstep]
      rfl
    | ok next =>
      obtain ⟨skip, st'⟩ := next
      rw [hs] at hstep
      obtain ⟨modes', table', hm', hrun⟩ := hstep
      rw [hrun]
      dsimp only
      by_cases hk : skip ≤ s.length
      · rw [scriptWalk_drop _ _ _ _ hk]
        refine ih _ ?_ hm' ?_ (h.tail.drop hk) rfl
        · simp only [List.length_drop, List.length_cons] at hlen ⊢
          omega
        · have hpassed := (hbefore.join h.head).join (h.tail.take hk)
          simpa using hpassed
      · have hlt : s.length < skip := Nat.lt_of_not_le hk
        have hstop := h.tail.stop_eq
        rw [scriptWalk_end _ _ _ _ (Nat.le_of_lt hlt), ← hstop]
        refine hfinish hm' ?_
        rw [hr.bound_eq, offset_le_iff]
        omega

/-- A scan of a region agrees with the one on characters if the scan of what is nested in it does.
-/
theorem scanRegion_agrees {settings : ScanSettings} {jsx : Bool} {scan : Scan} {inner : InnerScan}
    (hscan : Agrees text scan inner) :
    Agrees text (scanRegion settings text jsx scan)
      (ComponentAudit.scanRegion settings jsx inner) := by
  intro table n e lead s h hlead
  have hr : Runs ⟨settings, text, jsx, scan, offset text n, offset text e⟩
      ⟨settings, jsx, inner, lead⟩ n e := ⟨rfl, rfl, hscan, rfl, rfl, hlead⟩
  have hm : Mirrors text table [.code 0] table ⟨[.code 0 []], table.length⟩ :=
    ⟨rfl, by simp [sitesOf, frameSites], rfl, 0, [], rfl⟩
  have hbefore : Span text n n [].reverse := h.take (Nat.zero_le _)
  exact scriptLoop_eq hr hm hbefore h

/-- The scans of code, with all their levels, find the same sites in every region. -/
theorem scanScript_agrees (settings : ScanSettings) (text : List Char) (levels : Nat) :
    ∀ jsx, Agrees text (scanScript settings text levels jsx)
      (ComponentAudit.scanScript settings levels jsx) := by
  induction levels with
  | zero =>
    intro jsx
    exact scanRegion_agrees agrees_nothing
  | succ levels ih =>
    intro jsx
    exact scanRegion_agrees (ih true)

end ComponentAudit.Offset
