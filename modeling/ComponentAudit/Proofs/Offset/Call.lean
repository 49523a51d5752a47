import ComponentAudit.Proofs.Offset.Tag
import ComponentAudit.Site.Call

/-!
# Calls by byte offsets

The reading of a call that creates an element, by bytes. Its arguments end at the closing
parenthesis, or at the end of the region when there is none, and every search in them stops there.

`pathEnd_eq` compares the paths of identifiers, and `callAt_eq` what follows the name of a factory.
-/

namespace ComponentAudit.Offset

open Script

variable {text s : List Char} {n e : Nat} {c : Char}

/-! ### Paths -/

/-- A turn of the walk over the members of a path. -/
def pathTurn (text : List Char) (bound : Nat) (_ : Unit) (j : Nat) : Checked (Turn Unit Nat) := do
  if ← isAt text '.' j bound then
    if j + 1 < bound then
      let u ← byteAt text (j + 1)
      if isIdentStart u then return .next () (← identEnd text (j + 1) bound) else return .done j
    else return .done j
  else return .done j

/-- The end of the path that starts at `i`. -/
def pathEnd (text : List Char) (i bound : Nat) : Checked Nat := do
  loop bound (pathTurn text bound) (fun _ j => j) () (← identEnd text i bound)

private theorem pathLength_eq (s : List Char) :
    pathLength s = identLength s + pathLength (s.drop (identLength s)) := by
  induction s with
  | nil => rfl
  | cons c s ih =>
    by_cases hc : isIdentChar c = true
    · have hlength : identLength (c :: s) = identLength s + 1 := by simp [identLength, hc]
      rw [pathLength, if_pos hc, hlength, List.drop_succ_cons, ih]
      omega
    · simp [identLength, hc]

/-- The path of an identifier is within the text. -/
theorem pathLength_le (s : List Char) : pathLength s ≤ s.length := by
  induction s with
  | nil => exact Nat.le_refl _
  | cons c s ih =>
    rw [pathLength, List.length_cons]
    split
    · omega
    · split <;> omega

private theorem identLength_le (s : List Char) : identLength s ≤ s.length :=
  (List.takeWhile_sublist _).length_le

/-- Where an identifier ends, no character of one follows. -/
theorem isIdentChar_eq_false_of_drop {t : List Char} (h : s.drop (identLength s) = c :: t) :
    isIdentChar c = false := by
  have hhead := List.head?_dropWhile_not isIdentChar s
  rw [identLength, drop_length_takeWhile] at h
  rw [h] at hhead
  simpa using hhead

private theorem loop_pathTurn (h : Span text n e s) (hs : ∀ c ∈ s.head?, isIdentChar c = false) :
    loop (offset text e) (pathTurn text (offset text e)) (fun _ j => j) () (offset text n) =
      .ok (offset text (n + pathLength s)) := by
  -- On the length of what is left: a turn passes a dot and the whole identifier behind it.
  induction hlen : s.length using Nat.strongRecOn generalizing n s with
  | _ len ih =>
  cases s with
  | nil =>
    obtain rfl : e = n := h.stop_eq
    exact loop_finish (Nat.le_refl _)
  | cons c t =>
    have hlt : offset text n < offset text e := offset_lt_iff.2 h.lt
    have hc : isIdentChar c = false := hs c rfl
    by_cases hpath : c = '.' ∧ t.head?.any isIdentStart = true
    · obtain ⟨rfl, hhead⟩ := hpath
      obtain ⟨d, u, rfl⟩ : ∃ d u, t = d :: u := by
        cases t with
        | nil => simp at hhead
        | cons d u => exact ⟨d, u, rfl⟩
      have hd : isIdentStart d = true := by simpa using hhead
      have hnext := h.offset_succ_of_lt (by decide)
      have hturn : pathTurn text (offset text e) () (offset text n) =
          .ok (.next () (offset text (n + 1 + identLength (d :: u)))) := by
        simp [pathTurn, isAt_eq (x := '.') (by decide) h, hnext, h.tail.lt, h.tail.byteAt_lead,
          asciiOnly_isIdentStart.lead, hd, identEnd_eq h.tail]
      have hrest := h.tail.drop (identLength_le (d :: u))
      rw [loop_next hlt hturn (offset_lt_iff.2 (by omega)),
        ih _ ?_ hrest (fun x hx => ?_) rfl]
      · congr 2
        rw [pathLength, if_neg (by simp [hc]), if_pos (by simpa using hd), pathLength_eq (d :: u)]
        omega
      · simp only [List.length_drop, List.length_cons] at hlen ⊢
        omega
      · obtain ⟨v, hv⟩ := List.head?_eq_some_iff.1 hx
        exact isIdentChar_eq_false_of_drop hv
    · have hlength : pathLength (c :: t) = 0 := by
        rw [pathLength, if_neg (by simp [hc]), if_neg (by simpa using hpath)]
      rw [hlength]
      refine loop_done hlt ?_
      rw [pathTurn, isAt_eq (by decide) h, ok_bind, List.head?_cons]
      by_cases hdot : c = '.'
      · subst hdot
        have hnext := h.offset_succ_of_lt (by decide)
        cases t with
        | nil =>
          obtain rfl : e = n + 1 := h.tail.stop_eq
          simp [hnext]
        | cons d u =>
          have hd : isIdentStart d = false := by simpa using hpath
          simp [hnext, h.tail.lt, h.tail.byteAt_lead, asciiOnly_isIdentStart.lead, hd]
      · simp [hdot]

/-- The path of an identifier ends at the same place on both sides. -/
theorem pathEnd_eq (h : Span text n e s) :
    pathEnd text (offset text n) (offset text e) = .ok (offset text (n + pathLength s)) := by
  rw [pathEnd, identEnd_eq h, ok_bind, loop_pathTurn (h.drop (identLength_le s)), pathLength_eq s,
    Nat.add_assoc]
  intro c hc
  obtain ⟨t, ht⟩ := List.head?_eq_some_iff.1 hc
  exact isIdentChar_eq_false_of_drop ht

/-! ### Calls -/

/-- The element that the first argument names, if the arguments from `i` on name one, and the byte
after it. -/
def calledElement? (marker text : List Char) (i limit : Nat) :
    Checked (Option (List Char × Nat)) := do
  let k ← spaceEnd text i limit
  if limit ≤ k then return none
  else
    let u ← byteAt text k
    if u = '\'' || u = '"' then
      match ← closedString? text k limit with
      | none => return none
      | some (raw, after) =>
        if canonicalName? marker raw = some raw then return some (raw, after) else return none
    else if isIdentStart u then
      let after ← identEnd text k limit
      return some (← slice text k after, after)
    else return none

/-- The body of the object literal that follows at `i` as the next argument. -/
def nextObject? (text : List Char) (i limit : Nat) : Checked (Option (List Char)) := do
  let comma ← spaceEnd text i limit
  if ← isAt text ',' comma limit then
    let obj ← spaceEnd text (comma + 1) limit
    if ← isAt text '\x7b' obj limit then
      match ← closeOffset? text obj limit with
      | none => return none
      | some close => return some (← slice text (obj + 1) close)
    else return none
  else return none

/-- Adds the props of the object literal that follows at `i`, if there is one, to an entry. -/
def applyNextObject (text : List Char) (table : List Site) (entry i limit : Nat) :
    Checked (List Site) := do
  match ← nextObject? text i limit with
  | none => return table
  | some body =>
    let o ← readObject body
    updateAt table entry fun s =>
      { s with props := s.props.insertAll o.entries, spread := s.spread || o.spread }

/-- Adds the site of the call that starts at `start` and has its parenthesis at `paren`. -/
def callSite (settings : ScanSettings) (text : List Char) (table : List Site)
    (start paren bound : Nat) : Checked (List Site) := do
  let close? ← closeOffset? text paren bound
  let limit := close?.getD bound
  match ← calledElement? settings.marker text (paren + 1) limit with
  | none => return table
  | some (raw, after) =>
    match canonicalName? settings.marker raw with
    | none => return table
    | some name =>
      let pushed ← push settings table raw name start
      let ended ← updateAt pushed table.length (·.endingAt ((close?.map (· + 1)).getD bound))
      applyNextObject text ended table.length after limit

/-- Adds the site of a call that starts at `start`, when arguments follow its name at `j`. -/
def callAt (settings : ScanSettings) (text : List Char) (table : List Site) (start j bound : Nat) :
    Checked (List Site) := do
  let paren ← spaceEnd text j bound
  if ← isAt text '(' paren bound then callSite settings text table start paren bound
  else return table

/-- The component that a call creates is read alike on both sides. -/
theorem calledElement?_eq (marker : List Char) (h : Span text n e s) :
    match ComponentAudit.calledElement? marker s with
    | none => calledElement? marker text (offset text n) (offset text e) = .ok none
    | some (tag, rest) => ∃ m, Span text m e rest ∧
        calledElement? marker text (offset text n) (offset text e) =
          .ok (some (tag, offset text m)) := by
  have hrest := h.skipSpace
  rw [calledElement?, spaceEnd_eq h, ok_bind, ComponentAudit.calledElement?]
  generalize n + spaceLength s = m at *
  cases hs : skipSpace s with
  | nil =>
    rw [hs] at hrest
    obtain rfl : e = m := hrest.stop_eq
    simp
  | cons c t =>
    rw [hs] at hrest
    have hlt : ¬ offset text e ≤ offset text m := Nat.not_le_of_lt (offset_lt_iff.2 hrest.lt)
    simp only [hlt, if_false, hrest.byteAt_lead, ok_bind]
    by_cases hquote : c = '\'' ∨ c = '"'
    -- A quoted tag counts only in its canonical form, an identifier in any.
    · have hq : (decide (c = '\'') || decide (c = '"')) = true := by simpa using hquote
      have hlead : (decide (lead c = '\'') || decide (lead c = '"')) = true := by
        simpa [lead_eq_iff] using hquote
      rw [if_pos hlead, if_pos hq, closedString?_eq hrest hquote, ok_bind]
      have hafter := hrest.tail.drop (quotedLength_le c t)
      generalize hclosed : (decide (quotedLength c t ≠ 0) &&
        decide ((t.take (quotedLength c t)).getLast? = some c)) = closed
      cases closed with
      | false => rfl
      | true =>
        simp only [if_true, Bool.true_and, decide_eq_true_eq]
        by_cases hname : canonicalName? marker (t.take (quotedLength c t - 1)) =
            some (t.take (quotedLength c t - 1))
        · rw [if_pos hname, if_pos hname]
          exact ⟨_, hafter, rfl⟩
        · rw [if_neg hname, if_neg hname]
          rfl
    · have hq : ¬ (decide (c = '\'') || decide (c = '"')) = true := by simpa using hquote
      have hlead : ¬ (decide (lead c = '\'') || decide (lead c = '"')) = true := by
        simpa [lead_eq_iff] using hquote
      rw [if_neg hlead, if_neg hq, asciiOnly_isIdentStart.lead]
      by_cases hstart : isIdentStart c = true
      · have hle := identLength_le (c :: t)
        have hafter := hrest.drop hle
        rw [identLength, drop_length_takeWhile] at hafter
        rw [if_pos hstart, if_pos hstart, identEnd_eq hrest, ok_bind, (hrest.take hle).slice_eq,
          ok_bind, identLength, take_length_takeWhile]
        exact ⟨_, hafter, rfl⟩
      · rw [if_neg hstart, if_neg hstart]
        rfl

/-- The object literal behind it is read alike on both sides. -/
theorem nextObject?_eq (h : Span text n e s) :
    nextObject? text (offset text n) (offset text e) = .ok (ComponentAudit.nextObject? s) := by
  have hrest := h.skipSpace
  rw [nextObject?, spaceEnd_eq h, ok_bind, isAt_eq (by decide) hrest, ok_bind,
    ComponentAudit.nextObject?]
  split
  · next hcomma =>
    obtain ⟨t, ht⟩ := List.head?_eq_some_iff.1 (of_decide_eq_true hcomma)
    rw [ht] at hrest
    simp only [ht]
    have hobject := hrest.tail.skipSpace
    rw [hrest.offset_succ_of_lt (by decide), spaceEnd_eq hrest.tail, ok_bind,
      isAt_eq (by decide) hobject, ok_bind]
    split
    · next hbrace =>
      obtain ⟨u, hu⟩ := List.head?_eq_some_iff.1 (of_decide_eq_true hbrace)
      rw [hu] at hobject
      simp only [hu, closeOffset?_eq hobject, ok_bind]
      cases hk : closeLength? '\x7b' u with
      | none => rfl
      | some k =>
        obtain ⟨hlt, -⟩ := hobject.offset_closer hk
        simp [hobject.offset_succ_of_lt, (hobject.tail.take (Nat.le_of_lt hlt)).slice_eq]
    · next hbrace =>
      split
      · next u hu => simp [hu] at hbrace
      · rfl
  · next hcomma =>
    split
    · next t ht => simp [ht] at hcomma
    · rfl

/-- The object literal that follows is added to the entry of a site as it is added to the site. -/
theorem applyNextObject_eq (h : Span text n e s) (before : List Site) (site : Site) :
    applyNextObject text (before ++ [inBytes text site]) before.length (offset text n)
        (offset text e) =
      match ComponentAudit.nextObject? s with
      | none => .ok (before ++ [inBytes text site])
      | some body => ofOption ((site.applyObject? body).map fun site =>
          before ++ [inBytes text site]) := by
  rw [applyNextObject, nextObject?_eq h, ok_bind]
  cases ComponentAudit.nextObject? s with
  | none => rfl
  | some body =>
    dsimp only
    rw [readObject_eq, Site.applyObject?]
    cases readObject? body with
    | none => rfl
    | some o => exact updateAt_append before [] (inBytes text site) _

/-- **Calls.** The reading of a call on bytes adds to the table what the reading on characters
records. -/
theorem callSite_eq (settings : ScanSettings) (table : List Site) (start : Nat)
    (h : Span text n e ('(' :: s)) :
    callSite settings text table (offset text start) (offset text n) (offset text e) =
      lift ((ComponentAudit.callSite settings table.length start n ('(' :: s)).map fun site =>
        table ++ recorded text site.toList) := by
  -- The arguments stop at `limit`, and the site at `stop`.
  obtain ⟨args, limit, stop, hargs, hspan, hclose⟩ : ∃ args limit stop,
      callArguments (n + 1) s = (args, stop) ∧ Span text (n + 1) limit args ∧
        ∃ close?, closeOffset? text (offset text n) (offset text e) = .ok close? ∧
          close?.getD (offset text e) = offset text limit ∧
          (close?.map (· + 1)).getD (offset text e) = offset text stop := by
    rw [closeOffset?_eq h, callArguments]
    cases hk : closeLength? '(' s with
    | none => exact ⟨s, e, e, by rw [h.tail.stop_eq], h.tail, none, rfl, rfl, rfl⟩
    | some k =>
      obtain ⟨hlt, hsucc⟩ := h.offset_closer hk
      exact ⟨_, _, _, rfl, h.tail.take (Nat.le_of_lt hlt), _, rfl, rfl, hsucc⟩
  obtain ⟨close?, hclose, hlimit, hstop⟩ := hclose
  have hskip : skipSpace ('(' :: s) = '(' :: s := rfl
  have hspace : spaceLength ('(' :: s) = 0 := rfl
  have helement := calledElement?_eq settings.marker hspan
  rw [callSite, hclose, ok_bind, hlimit, hstop, h.offset_succ_of_lt (by decide),
    ComponentAudit.callSite, hskip, hspace, Nat.add_zero]
  simp only [hargs]
  cases hcalled : ComponentAudit.calledElement? settings.marker args with
  | none =>
    rw [hcalled] at helement
    rw [show _ = _ from helement]
    simp [Except.map]
  | some called =>
    obtain ⟨tag, rest⟩ := called
    rw [hcalled] at helement
    obtain ⟨m, hrest, hrun⟩ := helement
    rw [hrun, ok_bind]
    dsimp only
    cases canonicalName? settings.marker tag with
    | none => simp [Except.map]
    | some name =>
      dsimp only
      rw [push_eq]
      cases newSite settings table.length tag name start with
      | error err => rfl
      | ok site =>
        have hended : updateAt (table ++ [inBytes text site]) table.length
            (·.endingAt (offset text stop)) = .ok (table ++ [inBytes text (site.endingAt stop)]) :=
          updateAt_append table [] (inBytes text site) _
        simp only [Except.map, lift_ok, ok_bind, recorded_singleton, hended,
          applyNextObject_eq hrest]
        cases ComponentAudit.nextObject? rest with
        | none => rfl
        | some body =>
          dsimp only
          cases (site.endingAt stop).applyObject? body <;> rfl

/-- By bytes and by characters the same calls are found. -/
theorem callAt_eq (settings : ScanSettings) (table : List Site) (start : Nat)
    (h : Span text n e s) :
    callAt settings text table (offset text start) (offset text n) (offset text e) =
      lift ((ComponentAudit.callSite settings table.length start n s).map fun site =>
        table ++ recorded text site.toList) := by
  have hrest := h.skipSpace
  rw [callAt, spaceEnd_eq h, ok_bind, isAt_eq (by decide) hrest, ok_bind]
  split
  · next hparen =>
    obtain ⟨t, ht⟩ := List.head?_eq_some_iff.1 (of_decide_eq_true hparen)
    rw [ht] at hrest
    rw [callSite_eq settings table start hrest]
    congr 2
    simp only [ComponentAudit.callSite, ht]
    rfl
  · next hparen =>
    have hnone : ComponentAudit.callSite settings table.length start n s = .ok none := by
      rw [ComponentAudit.callSite]
      split
      · next t ht => simp [ht] at hparen
      · rfl
    rw [hnone]
    simp [Except.map]

end ComponentAudit.Offset
