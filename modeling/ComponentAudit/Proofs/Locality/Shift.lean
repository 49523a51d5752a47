import ComponentAudit.Proofs.Offset.Tag

/-!
# Moving a region

Where a region stands matters for its sites in one way only: their places move with it.
**Relocation** adds a constant to every place, in sites, in frames and in the state of a scan, and
each reader, step and run commutes with it (`readTag_shift`, `scriptStep_shift`,
`scriptWalk_shift`).

Of the text around the region, the scan looks at the character just before it, to tell a member of
something else from a function of its own. So two places are the same to it as long as neither
follows a `.`. Attribute expressions follow a brace, and need no such provision.
-/

namespace ComponentAudit

variable {d : Nat}

/-! ### Places in sites -/

/-- The site moved on by `d` characters. -/
def Site.shift (d : Nat) (s : Site) : Site := { s with start := s.start + d, stop := s.stop + d }

private theorem newSite_shift (settings : ScanSettings) (count : Nat) (tag name : List Char)
    (start : Nat) :
    newSite settings count tag name (start + d) =
      (newSite settings count tag name start).map (·.shift d) := by
  rw [newSite, newSite]
  split <;> rfl

private theorem Site.shift_endingAt (s : Site) (stop : Nat) :
    (s.shift d).endingAt (stop + d) = (s.endingAt stop).shift d := rfl

private theorem Site.map_shift_endingAt (site : Option Site) (stop : Nat) :
    ((site.map (·.shift d)).map (·.endingAt (stop + d))).toList =
      (site.map (·.endingAt stop)).toList.map (·.shift d) := by
  cases site <;> rfl

private theorem Site.apply?_shift (s : Site) (flavor : Flavor) (a : Attribute) :
    Site.apply? (s.shift d) flavor a = (Option.map (·.shift d) <| s.apply? flavor a) := by
  unfold Site.apply?
  rw [Option.map_map]
  congr 1
  funext m
  cases m <;> rfl

private theorem Site.applyObject?_shift (s : Site) (body : List Char) :
    (s.shift d).applyObject? body = (s.applyObject? body).map (·.shift d) := by
  rw [Site.applyObject?, Site.applyObject?, Option.map_map]
  rfl

/-! ### Tags -/

/-- The scan finds the same sites in a region wherever it stands, as long as it does not follow a
`.`. -/
def InnerScan.Relocates (scan : InnerScan) : Prop :=
  ∀ (count start d : Nat) (lead lead' : Option Char) (chars : List Char), lead ≠ some '.' →
    lead' ≠ some '.' →
      scan count ⟨start + d, lead', chars⟩ =
        (scan count ⟨start, lead, chars⟩).map (List.map (·.shift d))

private theorem InnerScan.relocates_nothing : InnerScan.Relocates fun _ _ => .ok [] :=
  fun _ _ _ _ _ _ _ _ => rfl

/-- The state of a tag moved on by `d` characters. -/
def TagState.shift (d : Nat) (st : TagState) : TagState :=
  ⟨st.site.map (·.shift d), st.inner.map (·.shift d), st.count⟩

/-- The tag moved on by `d` characters. -/
def Tag.shift (d : Nat) (t : Tag) : Tag :=
  ⟨t.name, t.site.map (·.shift d), t.inner.map (·.shift d), t.selfClosing, t.stop + d⟩

private theorem Tag.sites_shift (t : Tag) (stop : Nat) :
    (t.shift d).sites (stop + d) = (t.sites stop).map (·.shift d) := by
  rw [Tag.sites, Tag.sites, Tag.shift, List.map_append]
  simp only [Site.map_shift_endingAt]

section Tag

variable {scan : InnerScan} {flavor : Flavor}

/-- The sites in the value of an attribute move with it. -/
theorem TagState.addAttribute_shift (hscan : scan.Relocates) (st : TagState) (place : Nat)
    (a : Attribute) :
    (st.shift d).addAttribute flavor scan (place + d) a =
      (st.addAttribute flavor scan place a).map (·.shift d) := by
  have hvalue : Offset.valueSites scan flavor st.count (place + d) a =
      (Offset.valueSites scan flavor st.count place a).map (List.map (·.shift d)) := by
    unfold Offset.valueSites
    split
    · rw [Nat.add_right_comm]
      exact hscan _ _ _ _ _ _ (by decide) (by decide)
    · rfl
  rw [Offset.addAttribute_eq, Offset.addAttribute_eq]
  simp only [TagState.shift]
  rw [hvalue]
  cases Offset.valueSites scan flavor st.count place a with
  | error e => rfl
  | ok found =>
    cases st.site with
    | none => simp [Except.map]
    | some s =>
      simp only [Except.map, Option.map_some, Site.apply?_shift]
      cases s.apply? flavor a <;> simp

/-- The tag that a walk reads moves with its start. -/
theorem tagWalk_shift (hscan : scan.Relocates) {name : List Char} (chars : List Char) :
    ∀ (st : TagState) (place skip : Nat),
      tagWalk flavor scan name (st.shift d) (place + d) skip chars =
        (tagWalk flavor scan name st place skip chars).map (Option.map (·.shift d)) := by
  induction chars with
  | nil => intro st place skip; cases skip <;> rfl
  | cons c rest ih =>
    intro st place skip
    have hnext := fun st skip => ih st (place + 1) skip
    simp only [Nat.add_right_comm place 1 d] at hnext
    cases skip with
    | succ skip => exact hnext st skip
    | zero =>
      rw [tagWalk, tagWalk]
      split
      · simp only [Except.map, Option.map_some, Tag.shift, TagState.shift, Nat.add_right_comm]
      · rfl
      · exact hnext st _
      · rw [← hnext]
        congr 1
        simp [TagState.shift, Site.shift, Function.comp_def]
      · rw [TagState.addAttribute_shift hscan]
        cases st.addAttribute flavor scan place _ with
        | error e => rfl
        | ok st' => exact hnext st' _

/-- **A start tag** is read alike wherever it stands. -/
theorem readTag_shift (hscan : scan.Relocates) (settings : ScanSettings) (count start : Nat)
    (s : List Char) :
    readTag settings flavor scan count (start + d) s =
      (readTag settings flavor scan count start s).map (Option.map (·.shift d)) := by
  cases s with
  | nil => rfl
  | cons c s =>
    rw [readTag, readTag]
    split
    · simp only [Except.map, Option.map_some, Tag.shift, Nat.add_right_comm, Option.map_none,
        List.map_nil]
    split
    · rfl
    dsimp only
    split
    · rfl
    -- The site moves with its tag; the count, which the limit is checked against, does not.
    have hsite : tagSite settings count ((c :: s).takeWhile isTagChar) (start + d) =
        (tagSite settings count ((c :: s).takeWhile isTagChar) start).map
          (Option.map (·.shift d)) := by
      rw [tagSite, tagSite]
      split
      · rfl
      · rw [newSite_shift]
        cases newSite settings count ((c :: s).takeWhile isTagChar) _ start <;> rfl
    rw [hsite]
    cases tagSite settings count ((c :: s).takeWhile isTagChar) start with
    | error e => rfl
    | ok site =>
      have hcount : (site.map (·.shift d)).toList.length = site.toList.length := by
        cases site <;> rfl
      have hplace : ∀ n, start + d + 1 + n = start + 1 + n + d := fun n => by omega
      simp only [Except.map, hcount, hplace]
      exact tagWalk_shift hscan _ ⟨site, [], count + site.toList.length⟩ _ 0

end Tag

/-! ### Calls -/

private theorem callArguments_shift (place : Nat) (s : List Char) :
    callArguments (place + d) s = ((callArguments place s).1, (callArguments place s).2 + d) := by
  unfold callArguments
  split
  · simp only [Nat.add_right_comm]
  · simp only [Nat.add_right_comm]

/-- A call is read alike wherever it stands. -/
theorem callSite_shift (settings : ScanSettings) (count start place : Nat) (s : List Char) :
    callSite settings count (start + d) (place + d) s =
      (callSite settings count start place s).map (Option.map (·.shift d)) := by
  rw [callSite, callSite]
  split
  · next t _ =>
    have hplace : place + d + Script.spaceLength s + 1 = place + Script.spaceLength s + 1 + d := by
      omega
    rw [hplace, callArguments_shift (place + Script.spaceLength s + 1)]
    dsimp only
    generalize callArguments (place + Script.spaceLength s + 1) t = arguments
    split
    · rfl
    split
    · rfl
    next tag rest _ _ name _ =>
    rw [newSite_shift]
    cases newSite settings count tag name start with
    | error e => rfl
    | ok site =>
      simp only [Except.map, Site.shift_endingAt]
      cases nextObject? rest with
      | none => rfl
      | some body =>
        simp only [Site.applyObject?_shift]
        cases (site.endingAt arguments.2).applyObject? body <;> rfl
  · rfl

/-! ### Frames -/

/-- The frame moved on by `d` characters. -/
def Frame.shift (d : Nat) : Frame → Frame
  | .code braces found => .code braces (found.map (·.shift d))
  | .children tag site found => .children tag (site.map (·.shift d)) (found.map (·.shift d))

private theorem Frame.close_shift (f : Frame) (stop : Nat) :
    (f.shift d).close (stop + d) = (f.close stop).map (·.shift d) := by
  cases f with
  | code => rfl
  | children => simp only [Frame.shift, Frame.close, Site.map_shift_endingAt, List.map_append]

private theorem closeAll_shift (frames : List Frame) (stop : Nat) :
    closeAll (stop + d) (frames.map (·.shift d)) = (closeAll stop frames).map (·.shift d) := by
  rw [closeAll, closeAll, List.flatMap_map, List.map_flatMap]
  simp only [Frame.close_shift]

private theorem recordSites_shift (sites : List Site) (frames : List Frame) :
    recordSites (sites.map (·.shift d)) (frames.map (·.shift d)) =
      (recordSites sites frames).map (·.shift d) := by
  cases frames with
  | nil => rfl
  | cons f frames => cases f <;> simp [recordSites, Frame.record, Frame.shift]

private theorem openBrace_shift (frames : List Frame) :
    openBrace (frames.map (·.shift d)) = (openBrace frames).map (·.shift d) := by
  cases frames with
  | nil => rfl
  | cons f frames => cases f <;> rfl

private theorem closeBrace_shift (frames : List Frame) :
    closeBrace (frames.map (·.shift d)) = (closeBrace frames).map (·.shift d) := by
  cases frames with
  | nil => rfl
  | cons f frames =>
    rcases f with ⟨_ | braces, found⟩ | _
    · cases frames with
      | nil => rfl
      | cons g frames => exact recordSites_shift found (g :: frames)
    · rfl
    · rfl

private theorem closeElements?_shift (name : List Char) (stop : Nat) (frames : List Frame) :
    closeElements? name (stop + d) (frames.map (·.shift d)) =
      (closeElements? name stop frames).map
        (Prod.map (List.map (·.shift d)) (List.map (·.shift d))) := by
  induction frames with
  | nil => rfl
  | cons f frames ih =>
    cases f with
    | code => rfl
    | children tag site found =>
      have hclose := (Frame.children tag site found).close_shift (d := d) stop
      rw [List.map_cons, Frame.shift, closeElements?, closeElements?]
      rw [Frame.shift] at hclose
      dsimp only
      rw [hclose]
      split
      · rfl
      · rw [ih]
        cases closeElements? name stop frames with
        | none => rfl
        | some closed => simp [Prod.map]

/-! ### Script code -/

/-- The state of a walk moved on by `d` characters. -/
def ScriptState.shift (d : Nat) (st : ScriptState) : ScriptState :=
  ⟨st.frames.map (·.shift d), st.count⟩

section Script

variable {s : ScriptScan} {lead : Option Char}

private theorem openStep_shift (hscan : s.scan.Relocates) (st : ScriptState) (place : Nat)
    (rest : List Char) :
    openStep { s with lead } (st.shift d) (place + d) rest =
      (openStep s st place rest).map (Prod.map id (·.shift d)) := by
  rw [openStep, openStep]
  simp only [ScriptState.shift]
  rw [readTag_shift hscan]
  cases readTag s.settings .jsx s.scan st.count place rest with
  | error e => rfl
  | ok tag =>
    cases tag with
    | none => rfl
    | some tag =>
      have hskip : tag.stop + d - (place + d + 1) = tag.stop - (place + 1) := by omega
      have hcount : ((tag.shift d).sites (tag.stop + d)).length = (tag.sites tag.stop).length := by
        rw [Tag.sites_shift, List.length_map]
      have hrecord : recordSites ((tag.shift d).sites (tag.stop + d)) (st.frames.map (·.shift d)) =
          (recordSites (tag.sites tag.stop) st.frames).map (·.shift d) := by
        rw [Tag.sites_shift, recordSites_shift]
      simp only [Tag.shift] at hcount hrecord
      simp only [Except.map, Option.map_some, Prod.map, id, Tag.shift, hskip, hcount, hrecord]
      split <;> rfl

private theorem closeStep_shift (st : ScriptState) (place : Nat) (rest : List Char) :
    closeStep (st.shift d) (place + d) rest =
      Prod.map id (·.shift d) (closeStep st place rest) := by
  have hplace : ∀ skip, place + d + 1 + skip = place + 1 + skip + d := fun skip => by omega
  rw [closeStep, closeStep]
  dsimp only
  split
  · simp only [ScriptState.shift, hplace, closeElements?_shift]
    cases closeElements? _ _ st.frames with
    | none => rfl
    | some closed => simp [Prod.map, recordSites_shift]
  · rfl

private theorem childrenStep_shift (hscan : s.scan.Relocates) (st : ScriptState) (place : Nat)
    (c : Char) (rest : List Char) :
    childrenStep { s with lead } (st.shift d) (place + d) c rest =
      (childrenStep s st place c rest).map (Prod.map id (·.shift d)) := by
  rw [childrenStep, childrenStep]
  split
  · rfl
  split
  · split
    · rw [closeStep_shift]
      rfl
    · exact openStep_shift hscan st place rest
  · rfl

/-- Whether an identifier is a member of something is the one question that the character before
the region may answer, and then it is answered alike. -/
theorem identStep_shift (hlead : s.lead ≠ some '.') (hlead' : lead ≠ some '.') (st : ScriptState)
    (place : Nat) (before : List Char) (c : Char) (rest : List Char) :
    identStep { s with lead } (st.shift d) (place + d) before c rest =
      (identStep s st place before c rest).map (Prod.map id (·.shift d)) := by
  have hdot : (before.head?.or lead = some '.') = (before.head?.or s.lead = some '.') := by
    cases before with
    | nil => simp [hlead, hlead']
    | cons b before => rfl
  rw [identStep, identStep]
  simp only [hdot, Nat.add_right_comm place d]
  split
  · rfl
  · simp only [ScriptState.shift, callSite_shift]
    cases callSite s.settings st.count place _ _ with
    | error e => rfl
    | ok site =>
      cases site with
      | none => rfl
      | some site =>
        have hrecord := recordSites_shift (d := d) [site] st.frames
        simp only [List.map_cons, List.map_nil] at hrecord
        simp only [Except.map, Option.map_some, Prod.map, id, hrecord]

/-- A step in code does the same at another place, as long as neither region follows a dot. -/
theorem scriptCodeStep_shift (hscan : s.scan.Relocates) (hlead : s.lead ≠ some '.')
    (hlead' : lead ≠ some '.') (st : ScriptState) (place : Nat) (before : List Char) (c : Char)
    (rest : List Char) :
    scriptCodeStep { s with lead } (st.shift d) (place + d) before c rest =
      (scriptCodeStep s st place before c rest).map (Prod.map id (·.shift d)) := by
  rw [scriptCodeStep, scriptCodeStep]
  split
  · rfl
  split
  · rfl
  split
  · split <;> rfl
  split
  · simp only [ScriptState.shift, openBrace_shift]
    rfl
  split
  · simp only [ScriptState.shift, closeBrace_shift]
    rfl
  split
  · exact openStep_shift hscan st place rest
  split
  · exact identStep_shift hlead hlead' st place before c rest
  · rfl

/-- A step at a moved place is the same step, moved. -/
theorem scriptStep_shift (hscan : s.scan.Relocates) (hlead : s.lead ≠ some '.')
    (hlead' : lead ≠ some '.') (st : ScriptState) (place : Nat) (before : List Char) (c : Char)
    (rest : List Char) :
    scriptStep { s with lead } (st.shift d) (place + d) before c rest =
      (scriptStep s st place before c rest).map (Prod.map id (·.shift d)) := by
  rw [scriptStep, scriptStep]
  obtain ⟨_ | ⟨_ | _, frames⟩, count⟩ := st
  · exact scriptCodeStep_shift hscan hlead hlead' _ place before c rest
  · exact scriptCodeStep_shift hscan hlead hlead' _ place before c rest
  · exact childrenStep_shift hscan _ place c rest

/-- A walk from a moved place is the same walk, moved. -/
theorem scriptWalk_shift (hscan : s.scan.Relocates) (hlead : s.lead ≠ some '.')
    (hlead' : lead ≠ some '.') (chars : List Char) :
    ∀ (st : ScriptState) (place : Nat) (before : List Char) (skip : Nat),
      scriptWalk { s with lead } (st.shift d) (place + d) before skip chars =
        (scriptWalk s st place before skip chars).map (List.map (·.shift d)) := by
  induction chars with
  | nil =>
    intro st place before skip
    cases skip <;> exact congrArg Except.ok (closeAll_shift st.frames place)
  | cons c rest ih =>
    intro st place before skip
    have hnext := fun st skip => ih st (place + 1) (c :: before) skip
    simp only [Nat.add_right_comm place 1 d] at hnext
    cases skip with
    | succ skip => exact hnext st skip
    | zero =>
      rw [scriptWalk, scriptWalk, scriptStep_shift hscan hlead hlead']
      cases scriptStep s st place before c rest with
      | error e => rfl
      | ok next => exact hnext next.2 next.1

end Script

/-- A scan of a region moves with the region if the scan of what is nested in it does. -/
theorem scanRegion_relocates {settings : ScanSettings} {jsx : Bool} {scan : InnerScan}
    (hscan : scan.Relocates) : InnerScan.Relocates (scanRegion settings jsx scan) := by
  intro count start d lead lead' chars hlead hlead'
  exact scriptWalk_shift (s := ⟨settings, jsx, scan, lead⟩) hscan hlead hlead' chars
    ⟨[.code 0 []], count⟩ start [] 0

/-- A region of code has the same sites wherever it stands, at every depth of attribute
expressions. -/
theorem scanScript_relocates (settings : ScanSettings) :
    ∀ (levels : Nat) (jsx : Bool), (scanScript settings levels jsx).Relocates
  | 0, _ => scanRegion_relocates InnerScan.relocates_nothing
  | levels + 1, _ => scanRegion_relocates (scanScript_relocates settings levels true)

end ComponentAudit
