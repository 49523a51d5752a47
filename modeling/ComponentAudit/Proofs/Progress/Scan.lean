import ComponentAudit.Proofs.Offset.Markup
import ComponentAudit.Proofs.Progress.Token

/-!
# Progress of the scans

The walk over the attributes of a tag, the scan of code and the scan of markup go strictly forward
with every turn, and never beyond the end of their region (`tagTurn_proceeds`,
`scriptTurn_proceeds`, `markupTurn_proceeds`). Two places deserve a look. The value of an attribute
may be empty, but its name is not, so an attribute still takes up a byte. And a tag that comes to no
end has the scan go on just after its `<`, which is forward as well, although the attributes of the
tag have been scanned by then.

A scan asks another one about attribute expressions or script bodies. All that is needed of that
one is that it does not stall in strictly smaller regions (`ScanProceeds`), as in an induction on
the region (`scanRegion_proceeds`, `markupLoop_proceeds`). So no scan stalls, in whatever region of
whatever text (`scanScript_proceeds`, `scanMarkup_proceeds`).
-/

namespace ComponentAudit.Offset

open Script

variable {text : List Char} {i bound : Nat}

/-- The scan does not stall in regions that are strictly smaller than the one from `lo` to `bound`.
It may in others. -/
def ScanProceeds (lo bound : Nat) (scan : Scan) : Prop :=
  ∀ (table : List Site) (i j : Nat), lo < i → i ≤ j → j ≤ bound →
    Proceeds (scan table i j) fun _ => True

theorem scanProceeds_nothing (lo bound : Nat) :
    ScanProceeds lo bound fun table _ _ => return table := fun _ _ _ _ _ _ => trivial

/-! ### What has no loops -/

private theorem ofOption_proceeds {α : Type} (a? : Option α) :
    Proceeds (ofOption a?) fun _ => True := by
  cases a? with
  | none => exact Halt.noConfusion
  | some a => trivial

private theorem lift_proceeds {α : Type} (r : Except ExtractError α) :
    Proceeds (lift r) fun _ => True := by
  cases r with
  | ok a => trivial
  | error e => cases e <;> exact Halt.noConfusion

private theorem updateAt_proceeds (table : List Site) (k : Nat) (f : Site → Site) :
    Proceeds (updateAt table k f) fun _ => True := by
  unfold updateAt
  split
  · trivial
  · exact Halt.noConfusion

private theorem onSite_proceeds (site : Option Nat) (table : List Site)
    {f : Nat → Checked (List Site)} (hf : ∀ k, Proceeds (f k) fun _ => True) :
    Proceeds (onSite site table f) fun _ => True := by
  cases site with
  | none => trivial
  | some k => exact hf k

private theorem push_proceeds (settings : ScanSettings) (table : List Site) (tag name : List Char)
    (start : Nat) : Proceeds (push settings table tag name start) fun _ => True :=
  (lift_proceeds _).bind fun _ _ => trivial

private theorem endAll_proceeds (stop : Nat) (modes : List Mode) (table : List Site) :
    Proceeds (endAll stop modes table) fun _ => True := by
  induction modes with
  | nil => trivial
  | cons m modes ih =>
    refine ih.bind fun table _ => ?_
    unfold endMode
    split
    · exact updateAt_proceeds _ _ _
    · trivial

/-- What stands at an offset of the region is in the region. -/
theorem isAt_proceeds (text : List Char) (c : Char) (i bound : Nat) :
    Proceeds (isAt text c i bound) fun b => b = true → i < bound := by
  unfold isAt
  split
  · next h => exact (byteAt_proceeds text i).bind fun _ _ _ => h
  · exact fun h => nomatch h

private theorem applyAttribute_proceeds (table : List Site) (flavor : Flavor) (attr : List Char)
    (value : AttrValue) (k : Nat) :
    Proceeds (applyAttribute table flavor attr value k) fun _ => True := by
  have hmeaning : Proceeds (meaning flavor attr value) fun _ => True := by
    rw [meaning_eq flavor ⟨attr, value, 0, 0⟩]
    exact ofOption_proceeds _
  refine hmeaning.bind fun m _ => ?_
  split
  · trivial
  · exact updateAt_proceeds _ _ _

/-! ### Attributes -/

private theorem unquotedEnd_proceeds (text : List Char) {v : Nat} (h : v ≤ bound) :
    Proceeds (unquotedEnd text v bound) fun j => v ≤ j ∧ j ≤ bound := by
  refine (passWhile_proceeds _ text v bound).bind fun stop hstop => ?_
  have hle := hstop.2 h
  split
  · next hlt =>
    refine (byteAt_proceeds text (stop - 1)).bind fun last _ => ?_
    split
    · refine (byteAt_proceeds text stop).bind fun next _ => ?_
      split
      · exact ⟨Nat.le_sub_one_of_lt hlt, Nat.le_trans (Nat.sub_le _ _) hle⟩
      · exact ⟨hstop.1, hle⟩
    · exact ⟨hstop.1, hle⟩
  · exact ⟨hstop.1, hle⟩

section Tag

variable {scan : Scan} {lo : Nat} (hscan : ScanProceeds lo bound scan) (flavor : Flavor)
  (site : Option Nat) (table : List Site)

include hscan in
/-- A value ends in the region; it may be empty. -/
theorem attrValue_proceeds (text : List Char) {v : Nat} (hlo : lo ≤ v) :
    Proceeds (attrValue text scan flavor table v bound) fun x =>
      ∀ y ∈ x.1, v ≤ y.2 ∧ y.2 ≤ bound := by
  have hnone : ∀ table : List Site, Proceeds (return (none, table))
      fun x : Option (AttrValue × Nat) × List Site => ∀ y ∈ x.1, v ≤ y.2 ∧ y.2 ≤ bound :=
    fun _ _ hy => nomatch hy
  unfold attrValue
  split
  · exact hnone table
  next hlt =>
  refine (byteAt_proceeds text v).bind fun u _ => ?_
  split
  · refine (part_proceeds (bytes text) (v + 1) bound).bind fun rest hrest => ?_
    split
    · exact hnone table
    · next length hlength =>
      obtain ⟨hfound, -⟩ := List.findIdx?_eq_some_iff_findIdx_eq.1 hlength
      refine (slice_proceeds text _ _).bind fun s _ y hy => ?_
      cases hy
      exact ⟨by omega, by omega⟩
  split
  -- The expression between the braces is scanned as a region of its own, which is smaller.
  · refine (closeOffset?_proceeds text v bound).bind fun close? hclose => ?_
    split
    · exact hnone table
    · next close =>
      obtain ⟨hopen, hhi⟩ := hclose close rfl
      have hexpr : ∀ table : List Site, Proceeds
          (do return (some (AttrValue.expr (← slice text (v + 1) close), close + 1), table))
          fun x : Option (AttrValue × Nat) × List Site => ∀ y ∈ x.1, v ≤ y.2 ∧ y.2 ≤ bound := by
        refine fun table => (slice_proceeds text _ _).bind fun s _ y hy => ?_
        cases hy
        exact ⟨by omega, hhi⟩
      dsimp only
      split
      · refine (hscan table _ _ (Nat.lt_succ_of_le hlo) hopen (Nat.le_of_lt hhi)).bind
          fun table _ => ?_
        exact hexpr table
      · exact hexpr table
  · split
    · refine (unquotedEnd_proceeds text (Nat.le_of_not_le hlt)).bind fun stop hstop => ?_
      refine (slice_proceeds text _ _).bind fun s _ y hy => ?_
      cases hy
      exact hstop
    · exact hnone table

private theorem isAttrChar_of_isAttrStart {u : Char} (h : isAttrStart u = true) :
    isAttrChar u = true := by
  simp only [isAttrStart, isAttrChar, Bool.or_eq_true] at h ⊢
  rcases h with ((h | h) | h) | h
  · simp [isIdentChar_of_isIdentStart h]
  · simp [h]
  · simp [h]
  · simp [h]

/-- What a turn among the attributes comes to at `j`: it goes forward in the region, or ends the
tag in it. -/
def AttributeKeeps (j bound : Nat) : Turn (List Site) TagEnd → Prop :=
  Turn.Keeps j (· ≤ bound) fun r => ∀ x ∈ r.1, j < x.2 ∧ x.2 ≤ bound

private theorem attributeKeeps_broken (j bound : Nat) (table : List Site) :
    AttributeKeeps j bound (.done (none, table)) := fun _ hx => nomatch hx

include hscan in
/-- An attribute takes up its name, which is not empty. -/
theorem attributeTurn_proceeds {j : Nat} {u : Char} (hlo : lo ≤ j) (h : j < bound)
    (hu : byteAt text j = .ok u) (hstart : isAttrStart u = true) :
    Proceeds (attributeTurn text scan flavor site bound table j) (AttributeKeeps j bound) := by
  refine (passWhile_lt h hu (isAttrChar_of_isAttrStart hstart)).bind fun stop hstop => ?_
  refine (slice_proceeds text j stop).bind fun attr _ => ?_
  refine (passWhile_proceeds _ text stop bound).bind fun eq heq => ?_
  refine (isAt_proceeds text '=' eq bound).bind fun b hb => ?_
  extract_lets rest
  -- Whatever value follows, it ends after the name.
  have hrest : ∀ x, (∀ y ∈ x.1, j < y.2 ∧ y.2 ≤ bound) →
      Proceeds (rest x) (AttributeKeeps j bound) := by
    rintro ⟨value?, table⟩ hx
    cases value? with
    | none => exact attributeKeeps_broken j bound table
    | some y =>
      refine (onSite_proceeds site table (applyAttribute_proceeds _ _ _ _)).bind fun table _ => ?_
      exact hx y rfl
  split
  · refine (passWhile_proceeds _ text (eq + 1) bound).bind fun v hv => ?_
    refine (attrValue_proceeds hscan flavor table text (by omega)).bind fun x hx => ?_
    refine hrest x fun y hy => ?_
    have hbounds := hx y hy
    omega
  · refine hrest (some (.bare, stop), table) fun y hy => ?_
    cases hy
    exact hstop

private theorem braceTurn_proceeds (text : List Char) (j bound : Nat) :
    Proceeds (braceTurn text site bound table j) (AttributeKeeps j bound) := by
  refine (closeOffset?_proceeds text j bound).bind fun close? hclose => ?_
  split
  · exact attributeKeeps_broken j bound table
  · next close =>
    obtain ⟨hlo, hhi⟩ := hclose close rfl
    have hnext : j < close + 1 ∧ close + 1 ≤ bound := ⟨Nat.lt_succ_of_lt hlo, hhi⟩
    refine (slice_proceeds text _ _).bind fun inner _ => ?_
    split
    · refine (onSite_proceeds site table fun k => updateAt_proceeds _ _ _).bind fun table _ => ?_
      exact hnext
    · exact hnext

include hscan in
/-- A turn inside a tag keeps to the region. -/
theorem tagPartTurn_proceeds (text : List Char) {j : Nat} (hlo : lo ≤ j) :
    Proceeds (tagPartTurn text scan flavor site bound table j) (AttributeKeeps j bound) := by
  have hcomment : Proceeds (tagComment? text flavor j bound) fun next? =>
      ∀ next ∈ next?, j < next ∧ next ≤ bound := by
    unfold tagComment?
    split
    · exact commentEnd?_proceeds text j bound
    · exact fun _ hnext => nomatch hnext
  refine hcomment.bind fun next? hnext => ?_
  split
  · exact hnext _ rfl
  split
  · exact attributeKeeps_broken j bound table
  next hlt =>
  refine (byteAt_proceeds text j).bind fun u hu => ?_
  have hself : Proceeds (selfCloses text u j bound) fun b => b = true → j + 1 < bound := by
    unfold selfCloses
    split
    · exact isAt_proceeds text '>' (j + 1) bound
    · exact fun h => nomatch h
  refine hself.bind fun b hb => ?_
  split
  · next htrue =>
    intro x hx
    cases hx
    exact ⟨by omega, hb htrue⟩
  split
  · intro x hx
    cases hx
    exact ⟨Nat.lt_succ_self j, Nat.lt_of_not_le hlt⟩
  split
  · exact braceTurn_proceeds site table text j bound
  split
  · next hstart =>
    exact attributeTurn_proceeds hscan flavor site table hlo (Nat.lt_of_not_le hlt) hu hstart
  · exact attributeKeeps_broken j bound table

include hscan in
/-- A turn among the attributes of a tag goes forward in the region, or ends the tag in it. -/
theorem tagTurn_proceeds (text : List Char) {j : Nat} (hlo : lo ≤ j) :
    Proceeds (tagTurn text scan flavor site bound table j) (AttributeKeeps j bound) := by
  refine (passWhile_proceeds _ text j bound).bind fun k hk => ?_
  refine (tagPartTurn_proceeds hscan flavor site table text (Nat.le_trans hlo hk.1)).mono
    fun turn hturn => ?_
  cases turn with
  | done r =>
    intro x hx
    exact ⟨Nat.lt_of_le_of_lt hk.1 (hturn x hx).1, (hturn x hx).2⟩
  | next table' j' => exact ⟨Nat.lt_of_le_of_lt hk.1 hturn.1, hturn.2⟩

include hscan in
/-- A tag whose attributes start at `j` ends after them, in the region. -/
theorem tagTurns_proceeds (text : List Char) {j : Nat} (hlo : lo ≤ j) :
    Proceeds (tagTurns text scan flavor site bound table j) fun r =>
      ∀ x ∈ r.1, j < x.2 ∧ x.2 ≤ bound := by
  refine Proceeds.loop (P := fun k => j ≤ k) (fun table k hk _ => ?_)
    (fun _ _ _ _ _ hx => nomatch hx) _ (Nat.le_refl _)
  refine (tagTurn_proceeds hscan flavor site table text (Nat.le_trans hlo hk)).mono
    fun turn hturn => ?_
  cases turn with
  | done r =>
    intro x hx
    exact ⟨Nat.lt_of_le_of_lt hk (hturn x hx).1, (hturn x hx).2⟩
  | next table' j' => exact ⟨hturn.1, Nat.le_trans hk (Nat.le_of_lt hturn.1)⟩

private theorem nameEnds_proceeds (text : List Char) (i bound : Nat) :
    Proceeds (nameEnds text i bound) fun _ => True := by
  unfold nameEnds
  split
  · exact (byteAt_proceeds text i).bind fun _ _ => trivial
  · trivial

private theorem pushTag_proceeds (settings : ScanSettings) (table : List Site) (name : List Char)
    (start : Nat) : Proceeds (pushTag settings table name start) fun _ => True := by
  unfold pushTag
  split
  · trivial
  · exact (push_proceeds settings table name _ start).bind fun _ _ => trivial

include hscan in
/-- A start tag ends after its `<`, in the region. -/
theorem readTag_proceeds (settings : ScanSettings) (text : List Char) {lt : Nat} (hlo : lo ≤ lt) :
    Proceeds (readTag settings text scan flavor table lt bound) fun x =>
      ∀ tag ∈ x.1, lt < tag.stop ∧ tag.stop ≤ bound := by
  have hnone : ∀ table : List Site, Proceeds (return (none, table))
      fun x : Option Tag × List Site => ∀ tag ∈ x.1, lt < tag.stop ∧ tag.stop ≤ bound :=
    fun _ _ htag => nomatch htag
  unfold readTag
  split
  · exact hnone table
  next hlt =>
  refine (byteAt_proceeds text (lt + 1)).bind fun u _ => ?_
  split
  · intro tag htag
    cases htag
    exact ⟨Nat.lt_add_of_pos_right (by decide), Nat.lt_of_not_le hlt⟩
  split
  · exact hnone table
  refine (passWhile_proceeds _ text (lt + 1) bound).bind fun nameEnd hname => ?_
  refine (nameEnds_proceeds text nameEnd bound).bind fun b _ => ?_
  split
  · exact hnone table
  refine (slice_proceeds text _ _).bind fun name _ => ?_
  refine (pushTag_proceeds settings table name lt).bind fun pushed _ => ?_
  -- The walk over the attributes starts behind the name, so the tag ends behind its `<`.
  refine (tagTurns_proceeds hscan flavor pushed.1 pushed.2 text (by omega)).bind fun r hr => ?_
  split
  · exact hnone _
  · next selfClosing stop after =>
    intro tag htag
    cases htag
    have hstop := hr (selfClosing, stop) rfl
    exact ⟨Nat.lt_trans hname.1 hstop.1, hstop.2⟩

end Tag

/-! ### Calls -/

/-- A path that is there takes up its first byte. -/
theorem pathEnd_proceeds {u : Char} (h : i < bound) (hu : byteAt text i = .ok u)
    (hstart : isIdentStart u = true) :
    Proceeds (pathEnd text i bound) fun j => i < j ∧ j ≤ bound := by
  refine (passWhile_lt h hu (isIdentChar_of_isIdentStart hstart)).bind fun k hk => ?_
  refine Proceeds.loop (P := fun k => i < k ∧ k ≤ bound) (fun _ k hk _ => ?_) (fun _ k hk _ => hk)
    () hk
  refine (isAt_proceeds text '.' k bound).bind fun b _ => ?_
  split
  · split
    · next hlt =>
      refine (byteAt_proceeds text (k + 1)).bind fun v hv => ?_
      split
      · next hident =>
        refine (passWhile_lt hlt hv (isIdentChar_of_isIdentStart hident)).bind fun j hj => ?_
        exact ⟨by omega, by omega, hj.2⟩
      · exact hk
    · exact hk
  · exact hk

private theorem calledElement?_proceeds (marker text : List Char) (i limit : Nat) :
    Proceeds (calledElement? marker text i limit) fun _ => True := by
  refine (passWhile_proceeds _ text i limit).bind fun k _ => ?_
  split
  · trivial
  next hlt =>
  refine (byteAt_proceeds text k).bind fun u _ => ?_
  split
  · have hclosed : Proceeds (closedString? text k limit) fun _ => True := by
      refine (stringEnd_proceeds text (Nat.lt_of_not_le hlt)).bind fun stop _ => ?_
      split
      · trivial
      refine (byteAt_proceeds text _).bind fun last _ => ?_
      refine (byteAt_proceeds text _).bind fun quote _ => ?_
      split
      · trivial
      · exact (slice_proceeds text _ _).bind fun _ _ => trivial
    refine hclosed.bind fun closed? _ => ?_
    split
    · trivial
    · split <;> trivial
  split
  · refine (passWhile_proceeds _ text k limit).bind fun after _ => ?_
    exact (slice_proceeds text _ _).bind fun _ _ => trivial
  · trivial

private theorem applyNextObject_proceeds (text : List Char) (table : List Site)
    (entry i limit : Nat) :
    Proceeds (applyNextObject text table entry i limit) fun _ => True := by
  have hobject : Proceeds (nextObject? text i limit) fun _ => True := by
    refine (passWhile_proceeds _ text i limit).bind fun comma _ => ?_
    refine (isAt_proceeds text ',' comma limit).bind fun b _ => ?_
    split
    · refine (passWhile_proceeds _ text (comma + 1) limit).bind fun obj _ => ?_
      refine (isAt_proceeds text '\x7b' obj limit).bind fun b _ => ?_
      split
      · refine (closeOffset?_proceeds text obj limit).bind fun close? _ => ?_
        split
        · trivial
        · exact (slice_proceeds text _ _).bind fun _ _ => trivial
      · trivial
    · trivial
  refine hobject.bind fun body? _ => ?_
  split
  · trivial
  · next body =>
    have hread : Proceeds (readObject body) fun _ => True := by
      rw [readObject_eq]
      exact ofOption_proceeds _
    exact hread.bind fun o _ => updateAt_proceeds _ _ _

private theorem callAt_proceeds (settings : ScanSettings) (text : List Char) (table : List Site)
    (start j bound : Nat) :
    Proceeds (callAt settings text table start j bound) fun _ => True := by
  refine (passWhile_proceeds _ text j bound).bind fun paren _ => ?_
  refine (isAt_proceeds text '(' paren bound).bind fun b _ => ?_
  split
  · refine (closeOffset?_proceeds text paren bound).bind fun close? _ => ?_
    refine (calledElement?_proceeds settings.marker text _ _).bind fun called? _ => ?_
    split
    · trivial
    split
    · trivial
    refine (push_proceeds settings table _ _ start).bind fun pushed _ => ?_
    refine (updateAt_proceeds pushed _ _).bind fun ended _ => ?_
    exact applyNextObject_proceeds text ended _ _ _
  · trivial

/-! ### Script code -/

section Script

variable {r : ScriptRun} (hscan : ScanProceeds r.lo r.bound r.scan) (st : ModeState)
include hscan

/-- A tag is passed over as a whole, or the scan goes on just after its `<`. -/
theorem openTurn_proceeds (hlo : r.lo ≤ i) (h : i < r.bound) :
    Proceeds (openTurn r st i) (Turn.Keeps i (· ≤ r.bound) fun _ => True) := by
  refine (readTag_proceeds hscan .jsx st.2 r.settings r.text hlo).bind fun x hx => ?_
  obtain ⟨tag?, table⟩ := x
  cases tag? with
  | none => exact ⟨Nat.lt_succ_self i, h⟩
  | some tag =>
    have hstop := hx tag rfl
    dsimp only
    split
    · refine (onSite_proceeds tag.site table fun k => updateAt_proceeds _ _ _).bind fun _ _ => ?_
      exact hstop
    · exact hstop

omit hscan in
private theorem closeTurn_proceeds (h : i + 1 < r.bound) :
    Proceeds (closeTurn r st i) (Turn.Keeps i (· ≤ r.bound) fun _ => True) := by
  refine (passWhile_proceeds _ r.text (i + 2) r.bound).bind fun nameStart hstart => ?_
  refine (passWhile_proceeds _ r.text nameStart r.bound).bind fun nameEnd hend => ?_
  refine (passWhile_proceeds _ r.text nameEnd r.bound).bind fun gt hgt => ?_
  refine (isAt_proceeds r.text '>' gt r.bound).bind fun b hb => ?_
  split
  · next htrue =>
    have hnext : i < gt + 1 ∧ gt + 1 ≤ r.bound := ⟨by omega, hb htrue⟩
    refine (slice_proceeds r.text _ _).bind fun name _ => ?_
    split
    · exact hnext
    · exact (endAll_proceeds _ _ _).bind fun _ _ => hnext
  · exact ⟨Nat.lt_succ_self i, Nat.le_of_lt h⟩

/-- So does a turn among the children of an element. -/
theorem childrenTurn_proceeds (u : Char) (hlo : r.lo ≤ i) (h : i < r.bound) :
    Proceeds (childrenTurn r st u i) (Turn.Keeps i (· ≤ r.bound) fun _ => True) := by
  unfold childrenTurn
  split
  · exact ⟨Nat.lt_succ_self i, h⟩
  split
  · refine (isAt_proceeds r.text '/' (i + 1) r.bound).bind fun b hb => ?_
    split
    · next htrue => exact closeTurn_proceeds st (hb htrue)
    · exact openTurn_proceeds hscan st hlo h
  · exact ⟨Nat.lt_succ_self i, h⟩

omit hscan in
/-- A turn at an identifier goes past it. -/
theorem identTurn_proceeds {u : Char} (h : i < r.bound) (hu : byteAt r.text i = .ok u)
    (hstart : isIdentStart u = true) :
    Proceeds (identTurn r st i) (Turn.Keeps i (· ≤ r.bound) fun _ => True) := by
  refine (pathEnd_proceeds h hu hstart).bind fun j hj => ?_
  refine (slice_proceeds r.text i j).bind fun path _ => ?_
  split
  · have hdot : Proceeds (followsDot r.text i) fun _ => True := by
      unfold followsDot
      split
      · exact (byteAt_proceeds r.text _).bind fun _ _ => trivial
      · trivial
    refine hdot.bind fun b _ => ?_
    split
    · exact hj
    · exact (callAt_proceeds r.settings r.text st.2 i j r.bound).bind fun _ _ => hj
  · exact hj

omit hscan in
private theorem skippedEnd?_proceeds (r : ScriptRun) (i : Nat) :
    Proceeds (skippedEnd? r i) fun j? => ∀ j ∈ j?, i < j ∧ j ≤ r.bound := by
  refine (commentEnd?_proceeds r.text i r.bound).bind fun j? hj => ?_
  split
  · exact hj
  · exact regexEnd?_proceeds r.text r.lo i r.bound

omit hscan in
private theorem opensElement_proceeds (r : ScriptRun) (u : Char) (i : Nat) :
    Proceeds (opensElement r u i) fun _ => True := by
  unfold opensElement
  split
  · have hmay : Proceeds (tagMayFollow r.text i r.bound) fun _ => True := by
      unfold tagMayFollow
      split
      · exact (byteAt_proceeds r.text _).bind fun _ _ => trivial
      · trivial
    refine hmay.bind fun b _ => ?_
    split
    · exact mayStart_proceeds r.text r.lo i
    · trivial
  · trivial

/-- **A turn in code** goes forward and does not pass the end of the region. -/
theorem scriptCodeTurn_proceeds {u : Char} (hlo : r.lo ≤ i) (h : i < r.bound)
    (hu : byteAt r.text i = .ok u) :
    Proceeds (scriptCodeTurn r st u i) (Turn.Keeps i (· ≤ r.bound) fun _ => True) := by
  have hnext : i < i + 1 ∧ i + 1 ≤ r.bound := ⟨Nat.lt_succ_self i, h⟩
  refine (skippedEnd?_proceeds r i).bind fun j? hj => ?_
  split
  · exact hj _ rfl
  split
  · exact (stringEnd_proceeds r.text h).bind fun j hj => hj
  split
  · refine (closeOffset?_proceeds r.text i r.bound).bind fun close? hclose => ?_
    split
    · next close =>
      obtain ⟨hopen, hhi⟩ := hclose close rfl
      exact ⟨Nat.lt_succ_of_lt hopen, hhi⟩
    · exact ⟨h, Nat.le_refl _⟩
  split
  · exact hnext
  split
  · exact hnext
  refine (opensElement_proceeds r u i).bind fun b _ => ?_
  split
  · exact openTurn_proceeds hscan st hlo h
  split
  · next hident => exact identTurn_proceeds st h hu hident
  · exact hnext

/-- A turn of the scan of code goes strictly forward, and not beyond the region. -/
theorem scriptTurn_proceeds (hlo : r.lo ≤ i) (h : i < r.bound) :
    Proceeds (scriptTurn r st i) (Turn.Keeps i (· ≤ r.bound) fun _ => True) := by
  refine (byteAt_proceeds r.text i).bind fun u hu => ?_
  split
  · exact childrenTurn_proceeds hscan st u hlo h
  · exact scriptCodeTurn_proceeds hscan st hlo h hu

end Script

/-- The scan of a region does not stall, if the nested scans of strictly smaller regions do not. -/
theorem scanRegion_proceeds (settings : ScanSettings) (text : List Char) (jsx : Bool) {scan : Scan}
    {lo bound : Nat} (hscan : ScanProceeds lo bound scan) (table : List Site) :
    Proceeds (scanRegion settings text jsx scan table lo bound) fun _ => True := by
  have hloop : Proceeds (scriptLoop ⟨settings, text, jsx, scan, lo, bound⟩ ([.code 0], table) lo)
      fun _ => True :=
    Proceeds.loop_from (fun st _ hk hlt => scriptTurn_proceeds hscan st hk hlt)
      (fun _ _ => trivial) _
  exact hloop.bind fun st _ => endAll_proceeds _ _ _

/-- No scan of code stalls, at any depth of attribute expressions. -/
theorem scanScript_proceeds (settings : ScanSettings) (text : List Char) (levels : Nat)
    (jsx : Bool) (table : List Site) (lo bound : Nat) :
    Proceeds (scanScript settings text levels jsx table lo bound) fun _ => True := by
  induction levels generalizing jsx table lo bound with
  | zero => exact scanRegion_proceeds settings text jsx (scanProceeds_nothing lo bound) table
  | succ levels ih =>
    exact scanRegion_proceeds settings text jsx (fun table i j _ _ _ => ih true table i j) table

/-! ### Template markup -/

/-- What a text continues with after so many characters takes up its bytes after theirs. -/
theorem byteSize_take_add_le {s w t : List Char} {k : Nat} (h : s.drop k = w ++ t) :
    Text.byteSize (s.take k) + Text.byteSize w ≤ Text.byteSize s := by
  have hsize := congrArg Text.byteSize (List.take_append_drop k s)
  rw [h, byteSize_append, byteSize_append] at hsize
  omega

private theorem afterGt_le {s : List Char} {stop : Nat} (h : slice text stop bound = .ok s) :
    stop ≤ afterGt s stop bound ∧ afterGt s stop bound ≤ bound := by
  have hsize := byteSize_of_slice h
  rw [afterGt, bytesBefore]
  cases hk : Text.findChar? '>' s with
  | none => exact ⟨hsize ▸ Nat.le_add_right _ _, Nat.le_refl _⟩
  | some k =>
    obtain ⟨t, ht⟩ := getElem?_of_findChar? hk
    have hle : Text.byteSize (s.take k) + 1 ≤ Text.byteSize s :=
      byteSize_take_add_le (w := ['>']) ht
    dsimp only [Option.map_some]
    omega

private theorem lt_afterGt {s : List Char} (hlt : i < bound) : i < afterGt s i bound := by
  rw [afterGt]
  split
  · omega
  · exact hlt

private theorem searchFrom_proceeds (word hay : List Char) (k : Nat) :
    Proceeds (searchFrom word hay k) fun m? => ∀ m ∈ m?, m ≤ hay.length := by
  induction hleft : hay.length + 1 - k using Nat.strongRecOn generalizing k with
  | _ left ih =>
  rw [searchFrom]
  split
  · next hle =>
    refine (part_proceeds hay k _).bind fun here _ => ?_
    split
    · intro m hm
      cases hm
      omega
    · exact ih _ (by omega) (k + 1) rfl
  · intro m hm
    cases hm

section Markup

variable {r : MarkupRun} {lo : Nat} (st : OpenState)

/-- The body of an element ends in the region. -/
theorem bodyEnd_proceeds (r : MarkupRun) (word : List Char) (h : i ≤ r.bound) :
    Proceeds (bodyEnd r word i) fun stop => i ≤ stop ∧ stop ≤ r.bound := by
  have hfind : Proceeds (findWord? r.text word i r.bound) fun m? =>
      ∀ m ∈ m?, i ≤ m ∧ m ≤ r.bound := by
    refine (part_proceeds (bytes r.text) i r.bound).bind fun hay hhay => ?_
    refine (searchFrom_proceeds word hay 0).bind fun m? hm => ?_
    intro m hmem
    obtain ⟨k, hk, rfl⟩ := Option.map_eq_some_iff.1 hmem
    have hle := hm k hk
    omega
  refine hfind.bind fun m? hm => ?_
  cases m? with
  | none => exact ⟨h, Nat.le_refl _⟩
  | some m => exact hm m rfl

/-- A turn at a closing tag goes past its slash. -/
theorem closingTurn_proceeds (h : i + 2 ≤ r.bound) :
    Proceeds (closingTurn r st i) (Turn.Keeps i (· ≤ r.bound) fun _ => True) := by
  refine (passWhile_proceeds _ r.text (i + 2) r.bound).bind fun nameStart hstart => ?_
  refine (passWhile_proceeds _ r.text nameStart r.bound).bind fun nameEnd hend => ?_
  refine (part_proceeds (bytes r.text) nameEnd r.bound).bind fun after hafter => ?_
  refine (slice_proceeds r.text _ _).bind fun name _ => ?_
  cases hk : after.findIdx? (· = '>') with
  | none =>
    have hstop : i < r.bound ∧ r.bound ≤ r.bound := by omega
    split
    · exact hstop
    · exact (endAll_proceeds _ _ _).bind fun _ _ => hstop
  | some k =>
    obtain ⟨hfound, -⟩ := List.findIdx?_eq_some_iff_findIdx_eq.1 hk
    have hstop : i < nameEnd + k + 1 ∧ nameEnd + k + 1 ≤ r.bound := by omega
    split
    · exact hstop
    · exact (endAll_proceeds _ _ _).bind fun _ _ => hstop

/-- The body of a `script` element is code that starts after the tag and ends in the region. -/
theorem startTurn_proceeds (hscript : ∀ jsx, ScanProceeds lo r.bound (r.script jsx))
    (tags : List OpenTag) (table : List Site) {tag : Tag} (hlo : lo ≤ i) (hlt : i < tag.stop)
    (hle : tag.stop ≤ r.bound) :
    Proceeds (startTurn r tags table i tag) (Turn.Keeps i (· ≤ r.bound) fun _ => True) := by
  have hbody : ∀ {stop : Nat} (table : List Site), tag.stop ≤ stop →
      Proceeds (do
        return .next (tags, table) (afterGt (← slice r.text stop r.bound) stop r.bound))
        (Turn.Keeps i (· ≤ r.bound) fun _ : OpenState => True) := by
    intro stop table hstop
    refine (slice_proceeds r.text stop r.bound).bind fun s hs => ?_
    have hafter := afterGt_le hs
    exact ⟨by omega, hafter.2⟩
  unfold startTurn
  dsimp only
  split
  · refine (bodyEnd_proceeds r _ hle).bind fun stop hstop => ?_
    refine (slice_proceeds r.text _ _).bind fun source _ => ?_
    refine (hscript _ table _ _ (Nat.lt_of_le_of_lt hlo hlt) hstop.1 hstop.2).bind fun table _ => ?_
    exact hbody table hstop.1
  split
  · refine (bodyEnd_proceeds r _ hle).bind fun stop hstop => ?_
    exact hbody table hstop.1
  split
  · refine (onSite_proceeds tag.site table fun k => updateAt_proceeds _ _ _).bind fun _ _ => ?_
    exact ⟨hlt, hle⟩
  · exact ⟨hlt, hle⟩

/-- A turn at a `<` goes forward: over a comment, a closing tag, a declaration or a whole start
tag, and over the `<` alone where there is none of these. -/
theorem ltTurn_proceeds (hscript : ∀ jsx, ScanProceeds lo r.bound (r.script jsx)) (hlo : lo ≤ i)
    (h : i < r.bound) :
    Proceeds (ltTurn r st i) (Turn.Keeps i (· ≤ r.bound) fun _ => True) := by
  refine (slice_proceeds r.text i r.bound).bind fun rest hrest => ?_
  have hsize := byteSize_of_slice hrest
  split
  · rw [bytesBefore]
    cases hk : Text.find? "-->".toList rest with
    | none => exact ⟨h, Nat.le_refl _⟩
    | some k =>
      obtain ⟨t, ht⟩ := Text.startsWith_iff_isPrefix.1 (le_and_of_findWhere? hk).2
      have hle : Text.byteSize (rest.take k) + 3 ≤ Text.byteSize rest :=
        byteSize_take_add_le ht.symm
      exact ⟨by dsimp only [Option.map_some]; omega, by dsimp only [Option.map_some]; omega⟩
  split
  · next hclose =>
    obtain ⟨t, ht⟩ := Text.startsWith_iff_isPrefix.1 hclose
    have hle : 0 + 2 ≤ Text.byteSize rest := byteSize_take_add_le (k := 0) ht.symm
    exact closingTurn_proceeds st (by omega)
  split
  · exact ⟨lt_afterGt h, (afterGt_le hrest).2⟩
  · refine (readTag_proceeds (scanProceeds_nothing lo r.bound) .markup st.2 r.settings r.text
      hlo).bind fun x hx => ?_
    obtain ⟨tag?, table⟩ := x
    cases tag? with
    | none => exact ⟨Nat.lt_succ_self i, h⟩
    | some tag => exact startTurn_proceeds hscript st.1 table hlo (hx tag rfl).1 (hx tag rfl).2

/-- A turn of the scan of markup goes strictly forward, and not beyond the region. -/
theorem markupTurn_proceeds (hscript : ∀ jsx, ScanProceeds lo r.bound (r.script jsx))
    (hlo : lo ≤ i) :
    Proceeds (markupTurn r st i) (Turn.Keeps i (· ≤ r.bound) fun _ => True) := by
  refine (slice_proceeds r.text i r.bound).bind fun here hhere => ?_
  have hsize := byteSize_of_slice hhere
  rw [bytesBefore]
  cases hk : Text.findChar? '<' here with
  | none => trivial
  | some k =>
    obtain ⟨t, ht⟩ := getElem?_of_findChar? hk
    have hle : Text.byteSize (here.take k) + 1 ≤ Text.byteSize here :=
      byteSize_take_add_le (w := ['<']) ht
    dsimp only [Option.map_some]
    refine (ltTurn_proceeds st hscript (by omega) (by omega)).mono fun turn hturn => ?_
    cases turn with
    | done => trivial
    | next st' j => exact ⟨Nat.lt_of_le_of_lt (Nat.le_add_right _ _) hturn.1, hturn.2⟩

end Markup

/-- The scan of markup does not stall, if the scans of strictly smaller regions as code do not. -/
theorem markupLoop_proceeds {r : MarkupRun} {lo : Nat}
    (hscript : ∀ jsx, ScanProceeds lo r.bound (r.script jsx)) (st : OpenState) :
    Proceeds (loop r.bound (markupTurn r) (fun st _ => st) st lo) fun _ => True :=
  Proceeds.loop_from (fun st _ hk _ => markupTurn_proceeds st hscript hk) (fun _ _ => trivial) st

/-- No scan of markup stalls. -/
theorem scanMarkup_proceeds (settings : ScanSettings) (text : List Char) (levels : Nat)
    (table : List Site) (lo bound : Nat) :
    Proceeds (scanMarkup settings text levels table lo bound) fun _ => True := by
  have hscript : ∀ jsx, ScanProceeds lo bound (scanScript settings text levels jsx) :=
    fun jsx table i j _ _ _ => scanScript_proceeds settings text levels jsx table i j
  exact (markupLoop_proceeds (r := ⟨settings, text, scanScript settings text levels, bound⟩)
    hscript _).bind fun st _ => endAll_proceeds _ _ _

end ComponentAudit.Offset
