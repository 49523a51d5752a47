import ComponentAudit.Proofs.Offset.Script
import ComponentAudit.Proofs.Offset.Search

/-!
# Template markup by byte offsets

The scan of markup by bytes jumps from one `<` to the next. It keeps the open elements with the
indices of their sites; `Holds` compares them with those of the scan by characters.

`ltTurn_matches` compares one turn with the step at a `<`, and `scanMarkup_eq` whole texts.
-/

namespace ComponentAudit.Offset

open Script

variable {text s : List Char} {n e : Nat}

/-! ### Open elements -/

/-- An open element, with the index of its site. -/
structure OpenTag where
  tag : List Char
  site : Option Nat

/-- The mode of being inside an element. -/
def OpenTag.mode (t : OpenTag) : Mode := .children t.tag t.site

/-- What a scan of markup has open, innermost first, and the table of sites. -/
abbrev OpenState := List OpenTag × List Site

/-- The elements that a closing tag of the given name closes, if one of that name is open, and those
that stay open. -/
def closingNamed? (name : List Char) : List OpenTag → Option (List OpenTag × List OpenTag)
  | [] => none
  | t :: tags =>
    if Text.equalIgnoringCase t.tag name then some ([t], tags)
    else (closingNamed? name tags).map fun (closed, rest) => (t :: closed, rest)

/-- An open element as a frame. -/
def frameOf (x : OpenElement) : Frame := .children x.tag x.site x.found

/-- The sites of open elements, latest first. -/
def elementSites (elements : List OpenElement) : List Site := sitesOf (elements.map frameOf)

@[simp] theorem elementSites_cons (x : OpenElement) (elements : List OpenElement) :
    elementSites (x :: elements) = x.found ++ x.site.toList ++ elementSites elements := rfl

@[simp] theorem elementSites_append (a b : List OpenElement) :
    elementSites (a ++ b) = elementSites a ++ elementSites b := by
  simp [elementSites]

/-- The open elements by offsets, when so many sites are in the table before theirs. -/
def openTagsOf (count : Nat) : List OpenElement → List OpenTag
  | [] => []
  | x :: elements => ⟨x.tag, x.site.map fun _ => count + (elementSites elements).length⟩ ::
      openTagsOf count elements

private theorem map_mode_openTagsOf (count : Nat) (elements : List OpenElement) :
    (openTagsOf count elements).map OpenTag.mode = modesOf count (elements.map frameOf) := by
  induction elements with
  | nil => rfl
  | cons x elements ih => rw [openTagsOf, List.map_cons, ih]; rfl

/-- What a scan of markup has found and has open, by bytes and by characters. -/
structure Holds (text : List Char) (tags : List OpenTag) (table : List Site) (st : MarkupState) :
    Prop where
  tags_eq : tags = openTagsOf st.found.length st.elements
  table_eq : table = recorded text (elementSites st.elements ++ st.found)
  count_eq : st.count = table.length

section Holds

variable {tags : List OpenTag} {table : List Site} {st : MarkupState}

private theorem elementSites_place (st : MarkupState) (sites : List Site) :
    elementSites (st.place sites).elements ++ (st.place sites).found =
      sites ++ (elementSites st.elements ++ st.found) := by
  unfold MarkupState.place
  split
  · next hnil => simp [hnil, elementSites, sitesOf]
  · next x elements hcons => simp [hcons]

/-- Sites go into an element without a change to what is open, unless nothing is open. -/
theorem openTagsOf_place (st : MarkupState) (sites : List Site) :
    openTagsOf (st.place sites).found.length (st.place sites).elements =
      openTagsOf st.found.length st.elements := by
  unfold MarkupState.place
  split
  · next hnil => simp [hnil, openTagsOf]
  · next x elements hcons => simp [hcons, openTagsOf]

/-- Sites that are put elsewhere are not counted again. -/
theorem count_place (st : MarkupState) (sites : List Site) : (st.place sites).count = st.count := by
  unfold MarkupState.place
  split <;> rfl

/-- New sites go to the end of the table and to the innermost open element. -/
theorem Holds.record (h : Holds text tags table st) (sites : List Site) :
    Holds text tags (table ++ recorded text sites) (st.record sites) := by
  obtain ⟨rfl, rfl, hcount⟩ := h
  refine ⟨(openTagsOf_place st sites).symm, ?_, ?_⟩
  · rw [show (st.record sites).elements = (st.place sites).elements from rfl,
      show (st.record sites).found = (st.place sites).found from rfl, elementSites_place,
      ← recorded_append]
  · rw [List.length_append, ← hcount, length_recorded]
    rfl

/-- An element opens: its site and those in its attributes go to the end of the table. -/
theorem Holds.openElement (h : Holds text tags table st) (tag : List Char) (site : Option Site)
    (inner : List Site) (stop : Nat) :
    Holds text (⟨tag, site.map fun _ => table.length⟩ :: tags) (tagTable text table site inner)
      { st with
        elements := ⟨tag, site, inner⟩ :: st.elements
        count := st.count + (inner ++ (site.map (·.endingAt stop)).toList).length } := by
  obtain ⟨rfl, rfl, hcount⟩ := h
  refine ⟨?_, ?_, ?_⟩
  · simp [openTagsOf]
  · simp [tagTable]
  · cases site <;> simp_all [tagTable] <;> omega

/-- Elements close as the frames do that stand for them. -/
theorem close_frameOf (stop : Nat) (elements : List OpenElement) :
    closeAll stop (elements.map frameOf) = elements.flatMap (·.close stop) := by
  rw [closeAll, List.flatMap_map]
  rfl

/-- A closing tag closes the same elements on both sides. -/
theorem closingNamed?_openTagsOf (name : List Char) (stop count : Nat)
    (elements : List OpenElement) :
    match closeNamed? name stop elements with
    | none => closingNamed? name (openTagsOf count elements) = none
    | some (sites, rest) => ∃ closed, elements = closed ++ rest ∧
        sites = closed.flatMap (·.close stop) ∧ closingNamed? name (openTagsOf count elements) =
          some (openTagsOf (count + (elementSites rest).length) closed, openTagsOf count rest) := by
  induction elements with
  | nil => rfl
  | cons x elements ih =>
    rw [closeNamed?, openTagsOf, closingNamed?]
    by_cases hname : Text.equalIgnoringCase x.tag name = true
    · rw [if_pos hname, if_pos hname]
      exact ⟨[x], rfl, by simp, rfl⟩
    · rw [if_neg hname, if_neg hname]
      cases hclose : closeNamed? name stop elements with
      | none =>
        rw [hclose] at ih
        rw [show _ = _ from ih]
        rfl
      | some closed =>
        obtain ⟨sites, rest⟩ := closed
        rw [hclose] at ih
        obtain ⟨closed, rfl, rfl, htags⟩ := ih
        refine ⟨x :: closed, rfl, rfl, ?_⟩
        rw [htags]
        simp [openTagsOf, Nat.add_assoc, Nat.add_comm (elementSites rest).length]

/-- Closing elements. -/
theorem Holds.close (h : Holds text tags table st) (name : List Char) (stop : Nat) :
    match closeNamed? name stop st.elements with
    | none => closingNamed? name tags = none
    | some (sites, rest) => ∃ closed tags' table', closingNamed? name tags = some (closed, tags') ∧
        endAll (offset text stop) (closed.map OpenTag.mode) table = .ok table' ∧
        Holds text tags' table' ({ st with elements := rest }.place sites) := by
  obtain ⟨rfl, rfl, hcount⟩ := h
  have hclosing := closingNamed?_openTagsOf name stop st.found.length st.elements
  cases hclose : closeNamed? name stop st.elements with
  | none =>
    rw [hclose] at hclosing
    exact hclosing
  | some closed =>
    obtain ⟨sites, rest⟩ := closed
    rw [hclose] at hclosing
    obtain ⟨closed, helements, rfl, htags⟩ := hclosing
    have hlength : (recorded text (elementSites rest ++ st.found)).length =
        st.found.length + (elementSites rest).length := by simp
    have htable : recorded text (elementSites rest ++ st.found) ++
        recorded text (sitesOf (closed.map frameOf)) ++ [] =
          recorded text (elementSites st.elements ++ st.found) := by
      simp [helements, elementSites]
    have hend := @endAll_eq text stop (closed.map frameOf)
      (recorded text (elementSites rest ++ st.found)) []
    rw [hlength, htable, ← map_mode_openTagsOf, List.append_nil, close_frameOf] at hend
    refine ⟨_, _, _, htags, hend, ?_, ?_, ?_⟩
    · rw [openTagsOf_place]
    · rw [elementSites_place, ← recorded_append]
    · rw [count_place, hcount, helements, ← close_frameOf]
      simp [length_closeAll, elementSites]

end Holds

/-! ### Turns -/

/-- What is the same all through a scan of markup by bytes. -/
structure MarkupRun where
  settings : ScanSettings
  text : List Char
  /-- The scan of the code in a `script` element. -/
  script : Bool → Scan
  /-- The byte after the markup. -/
  bound : Nat

/-- The turn at a closing tag. -/
def closingTurn (r : MarkupRun) (st : OpenState) (i : Nat) :
    Checked (Turn OpenState OpenState) := do
  let nameStart ← spaceEnd r.text (i + 2) r.bound
  let nameEnd ← passWhile isTagChar r.text nameStart r.bound
  let after ← byteSlice r.text nameEnd r.bound
  let stop := match after.findIdx? (· = '>') with
    | some k => nameEnd + k + 1
    | none => r.bound
  let name ← slice r.text nameStart nameEnd
  match closingNamed? name st.1 with
  | none => return .next st stop
  | some (closed, rest) =>
    return .next (rest, ← endAll stop (closed.map OpenTag.mode) st.2) stop

/-- The end of the body that starts at `i` and is followed by `word`. -/
def bodyEnd (r : MarkupRun) (word : List Char) (i : Nat) : Checked Nat := do
  return (← findWord? r.text word i r.bound).getD r.bound

/-- The turn at a start tag at `i` that has been read. -/
def startTurn (r : MarkupRun) (tags : List OpenTag) (table : List Site) (i : Nat) (tag : Tag) :
    Checked (Turn OpenState OpenState) := do
  let lowerName := tag.name.map Text.lowerAscii
  if lowerName = "script".toList && !tag.selfClosing then
    let stop ← bodyEnd r "</script".toList tag.stop
    let jsx := hasTagLang false (← slice r.text i tag.stop)
    let table ← r.script jsx table tag.stop stop
    return .next (tags, table) (afterGt (← slice r.text stop r.bound) stop r.bound)
  else if lowerName = "style".toList && !tag.selfClosing then
    let stop ← bodyEnd r "</style".toList tag.stop
    return .next (tags, table) (afterGt (← slice r.text stop r.bound) stop r.bound)
  else if tag.selfClosing || voidElements.contains lowerName then
    let ended ← onSite tag.site table fun j => updateAt table j (·.endingAt tag.stop)
    return .next (tags, ended) tag.stop
  else return .next (⟨tag.name, tag.site⟩ :: tags, table) tag.stop

/-- The turn at the `<` at `i`. -/
def ltTurn (r : MarkupRun) (st : OpenState) (i : Nat) : Checked (Turn OpenState OpenState) := do
  let rest ← slice r.text i r.bound
  if Text.startsWith "<!--".toList rest then
    return .next st (match bytesBefore rest (Text.find? "-->".toList rest) with
      | some k => i + k + 3
      | none => r.bound)
  else if Text.startsWith "</".toList rest then closingTurn r st i
  else if Text.startsWith "<!".toList rest || Text.startsWith "<?".toList rest then
    return .next st (afterGt rest i r.bound)
  else
    let (tag?, table) ←
      readTag r.settings r.text (fun table _ _ => return table) .markup st.2 i r.bound
    match tag? with
    | none => return .next (st.1, table) (i + 1)
    | some tag => startTurn r st.1 table i tag

/-- A turn of the scan, which goes to the next `<`. -/
def markupTurn (r : MarkupRun) (st : OpenState) (i : Nat) : Checked (Turn OpenState OpenState) := do
  let here ← slice r.text i r.bound
  match bytesBefore here (Text.findChar? '<' here) with
  | none => return .done st
  | some k => ltTurn r st (i + k)

/-- Scans the text between two offsets as markup. -/
def scanMarkup (settings : ScanSettings) (text : List Char) (levels : Nat) (table : List Site)
    (i bound : Nat) : Checked (List Site) := do
  let run : MarkupRun := ⟨settings, text, scanScript settings text levels, bound⟩
  let (tags, table) ← loop bound (markupTurn run) (fun st _ => st) ([], table) i
  endAll bound (tags.map OpenTag.mode) table

/-! ### Steps -/

/-- What the turn at a `<` comes to, given what the step there comes to. -/
def MarkupMatches (text : List Char) (run : Checked (Turn OpenState OpenState)) (n : Nat) :
    MarkupStep → Prop
  | .error err => run = .error (.ofError err)
  | .ok (skip, st') => ∃ tags table, Holds text tags table st' ∧
      run = .ok (.next (tags, table) (offset text (n + 1 + skip)))

/-- A scan of markup to the place `e` by bytes, and the same by characters. -/
structure MarkupRuns (r : MarkupRun) (settings : ScanSettings) (script : Bool → InnerScan)
    (e : Nat) : Prop where
  settings_eq : r.settings = settings
  agrees : ∀ jsx, Agrees r.text (r.script jsx) (script jsx)
  bound_eq : r.bound = offset r.text e

private theorem stop_of_apply? {flavor : Flavor} {a : Attribute} {x y : Site}
    (h : x.apply? flavor a = some y) : y.stop = x.stop := by
  obtain ⟨m, -, rfl⟩ := Option.map_eq_some_iff.1 h
  cases m <;> rfl

/-- The attributes of a tag do not move the end of its site. -/
theorem stop_of_tagWalk {flavor : Flavor} {inner : InnerScan} {name : List Char} {st : TagState}
    {place skip m : Nat} {tag : ComponentAudit.Tag} (hst : ∀ x ∈ st.site, x.stop = m)
    (h : tagWalk flavor inner name st place skip s = .ok (some tag)) :
    ∀ x ∈ tag.site, x.stop = m := by
  induction s generalizing st place skip with
  | nil => cases skip <;> cases h
  | cons c s ih =>
    cases skip with
    | succ k => exact ih hst h
    | zero =>
      rw [tagWalk] at h
      split at h
      · cases h
        exact hst
      · cases h
      · exact ih hst h
      · refine ih ?_ h
        intro x hx
        obtain ⟨y, hy, rfl⟩ := Option.map_eq_some_iff.1 hx
        exact hst y hy
      · split at h
        · cases h
        · next st' hadd =>
          refine ih ?_ h
          obtain ⟨-, -, -, hsite | ⟨y, z, hy, happly, hz⟩⟩ := TagState.addAttribute_eq_ok hadd
          · rwa [hsite]
          · intro x hx
            obtain rfl : z = x := Option.some.inj (hz.symm.trans hx)
            have hstop := stop_of_apply? happly
            exact hstop.trans (hst y hy)

private theorem stop_of_tagSite {settings : ScanSettings} {count : Nat} {name : List Char}
    {site : Option Site} (h : tagSite settings count name n = .ok site) :
    ∀ x ∈ site, x.stop = n := by
  rw [tagSite] at h
  split at h
  · cases h
    intro x hx
    cases hx
  · rw [newSite] at h
    split at h <;> cases h
    intro x hx
    cases hx
    rfl

/-- Until its element ends, the site of a tag has no extent. -/
theorem endingAt_of_readTag {settings : ScanSettings} {flavor : Flavor} {inner : InnerScan}
    {count : Nat} {tag : ComponentAudit.Tag}
    (h : ComponentAudit.readTag settings flavor inner count n s = .ok (some tag)) :
    tag.sites n = tag.inner ++ tag.site.toList := by
  have hstop : ∀ x ∈ tag.site, x.stop = n := by
    cases s with
    | nil => cases h
    | cons c s =>
      rw [ComponentAudit.readTag] at h
      split at h
      · cases h
        intro x hx
        cases hx
      split at h
      · cases h
      dsimp only at h
      split at h
      · cases h
      split at h
      · cases h
      · next site hsite => exact stop_of_tagWalk (stop_of_tagSite hsite) h
  cases hsite : tag.site with
  | none => simp [Tag.sites, hsite]
  | some x =>
    obtain rfl : x.stop = n := hstop x hsite
    simp [Tag.sites, hsite, Site.endingAt]

section Turns

variable {r : MarkupRun} {settings : ScanSettings} {script : Bool → InnerScan}
  {tags : List OpenTag} {table : List Site} {st : MarkupState}

/-- A turn at a closing tag. -/
theorem closingTurn_matches (hr : MarkupRuns r settings script e)
    (hh : Holds r.text tags table st) (h : Span r.text n e ('<' :: '/' :: s)) :
    MarkupMatches r.text (closingTurn r (tags, table) (offset r.text n)) n
      (.ok (closingStep st n s)) := by
  have hstart : offset r.text n + 2 = offset r.text (n + 1 + 1) := by
    rw [← h.tail.offset_succ_of_lt (by decide), ← h.offset_succ_of_lt (by decide)]
  have hname := h.tail.tail.skipSpace
  have hle : ((skipSpace s).takeWhile isTagChar).length ≤ (skipSpace s).length :=
    (List.takeWhile_sublist _).length_le
  have hword := hname.take hle
  have hafter := hname.drop hle
  rw [take_length_takeWhile] at hword
  rw [closingTurn, hr.bound_eq, hstart, spaceEnd_eq h.tail.tail, ok_bind,
    passWhile_eq asciiOnly_isTagChar hname, ok_bind, hafter.byteSlice_eq, ok_bind, hword.slice_eq,
    ok_bind, closingStep]
  dsimp only
  generalize (skipSpace s).takeWhile isTagChar = name at *
  generalize (skipSpace s).drop name.length = rest at *
  -- Neither side asks for the `>` right behind the name: both take the first one after it.
  have hstop : (match (bytes rest).findIdx? (· = '>') with
      | some k => offset r.text (n + 1 + 1 + spaceLength s + name.length) + k + 1
      | none => offset r.text e) =
        offset r.text (n + 1 + (1 + spaceLength s + name.length + lengthThrough '>' rest)) := by
    rw [findIdx?_bytes (by decide)]
    refine (afterGt_eq hafter).trans (congrArg (offset r.text) ?_)
    omega
  rw [hstop]
  have hclose := hh.close name (n + 1 + (1 + spaceLength s + name.length + lengthThrough '>' rest))
  cases hnamed : closeNamed? name
      (n + 1 + (1 + spaceLength s + name.length + lengthThrough '>' rest)) st.elements with
  | none =>
    rw [hnamed] at hclose
    rw [show _ = _ from hclose]
    exact ⟨tags, table, hh, rfl⟩
  | some closed =>
    obtain ⟨sites, elements⟩ := closed
    rw [hnamed] at hclose
    obtain ⟨closed, tags', table', hclosing, hend, hh'⟩ := hclose
    refine ⟨tags', table', hh', ?_⟩
    rw [hclosing]
    simp only [hend]
    rfl

/-- A body and what follows it, up to the end of its closing tag. -/
theorem bodyEnd_eq (hr : MarkupRuns r settings script e) (word : List Char) (hne : word ≠ [])
    (hword : ∀ a ∈ word, a.toNat < 128) (h : Span r.text n e s) :
    bodyEnd r word (offset r.text n) = .ok (offset r.text (n + lengthBefore word s)) ∧
      Span r.text n (n + lengthBefore word s) (s.take (lengthBefore word s)) ∧
      Span r.text (n + lengthBefore word s) e (s.drop (lengthBefore word s)) := by
  refine ⟨?_, h.take (lengthBefore_le word s), h.drop (lengthBefore_le word s)⟩
  rw [bodyEnd, hr.bound_eq]
  exact findWord?_eq hne hword h

/-- An element without content has no body. -/
theorem hasBody_of_void {name lowerName : List Char} {selfClosing : Bool}
    (hname : voidElements.contains name = false)
    (hvoid : (selfClosing || voidElements.contains lowerName) = true) :
    (decide (lowerName = name) && !selfClosing) = false := by
  cases selfClosing with
  | true => exact Bool.and_false _
  | false =>
    have hne : lowerName ≠ name := by
      rintro rfl
      rw [hname] at hvoid
      cases hvoid
    simp [hne]

/-- A start tag and what follows it. -/
theorem spans_of_readTag {flavor : Flavor} {inner : InnerScan} {count : Nat}
    {tag : ComponentAudit.Tag} (h : Span text n e ('<' :: s))
    (hread : ComponentAudit.readTag settings flavor inner count n s = .ok (some tag)) :
    n < tag.stop ∧ Span text n tag.stop (('<' :: s).take (tag.stop - n)) ∧
      Span text tag.stop e (('<' :: s).drop (tag.stop - n)) ∧
        Precedes text tag.stop (some '>') := by
  obtain ⟨pre, post, rfl, hstop⟩ := exists_gt_of_readTag hread
  have hlt : n < tag.stop := by omega
  have hle : tag.stop - n ≤ ('<' :: (pre ++ '>' :: post)).length := by
    simp only [List.length_cons, List.length_append]
    omega
  have hadd : n + (tag.stop - n) = tag.stop := Nat.add_sub_of_le (Nat.le_of_lt hlt)
  have htake := h.take hle
  have hdrop := h.drop hle
  rw [hadd] at htake hdrop
  refine ⟨hlt, htake, hdrop, n + 1 + pre.length, hstop, ?_⟩
  rw [hstop]
  exact h.tail.split.2.head

/-- A turn at a start tag that has been read. -/
theorem startTurn_matches (hr : MarkupRuns r settings script e)
    (hh : Holds r.text tags table st) (h : Span r.text n e ('<' :: s)) {tag : ComponentAudit.Tag}
    (hread : ComponentAudit.readTag settings .markup (fun _ _ => .ok []) st.count n s =
      .ok (some tag)) :
    MarkupMatches r.text (startTurn r tags (tagTable r.text table tag.site tag.inner)
        (offset r.text n) ⟨tag.name, tag.site.map fun _ => table.length, tag.selfClosing,
          offset r.text tag.stop⟩) n
      (tagStep script st n ('<' :: s) tag) := by
  obtain ⟨hlt, htag, hpost, hlead⟩ := spans_of_readTag h hread
  have hopened := hh.record (tag.sites n)
  rw [endingAt_of_readTag hread, show table ++ recorded r.text (tag.inner ++ tag.site.toList) =
    tagTable r.text table tag.site tag.inner from rfl] at hopened
  have hnext : n + 1 + (tag.stop - n - 1) = tag.stop := by omega
  rw [startTurn, tagStep, endingAt_of_readTag hread]
  dsimp only
  generalize tag.name.map Text.lowerAscii = lowerName
  generalize ('<' :: s).take (tag.stop - n) = own at htag ⊢
  generalize ('<' :: s).drop (tag.stop - n) = body at hpost ⊢
  -- A tag without a body, a script, whose body is scanned, a style sheet, whose body is passed
  -- over, and an element that stays open.
  by_cases hvoid : (tag.selfClosing || voidElements.contains lowerName) = true
  · rw [hasBody_of_void (by decide) hvoid, hasBody_of_void (by decide) hvoid, if_pos hvoid,
      if_pos hvoid]
    refine ⟨tags, _, hh.record (tag.sites tag.stop), ?_⟩
    simp only [Bool.false_eq_true, if_false, onSite_endingAt, hnext]
    rfl
  · obtain ⟨hself, -⟩ : tag.selfClosing = false ∧ voidElements.contains lowerName = false := by
      rwa [Bool.not_eq_true, Bool.or_eq_false_iff] at hvoid
    rw [if_neg hvoid, if_neg hvoid]
    simp only [hself, Bool.not_false, Bool.and_true, decide_eq_true_eq]
    by_cases hscript : lowerName = "script".toList
    · rw [if_pos hscript, if_pos hscript]
      have hscan := hr.agrees (hasTagLang false own) (tagTable r.text table tag.site tag.inner)
      obtain ⟨hend, hcode, hrest⟩ := bodyEnd_eq hr "</script".toList (by decide)
        (forall_lt_of_all (by decide)) hpost
      rw [hend, ok_bind, htag.slice_eq, ok_bind, hscan _ _ _ _ hcode hlead, ← hopened.count_eq,
        hr.bound_eq, hrest.slice_eq]
      generalize "</script".toList = word at *
      cases script (hasTagLang false own) (st.record (tag.inner ++ tag.site.toList)).count
          ⟨tag.stop, some '>', body.take (lengthBefore word body)⟩ with
      | error err => rfl
      | ok found =>
        refine ⟨tags, _, hopened.record found, ?_⟩
        simp only [Except.map, lift_ok, ok_bind, pure_eq_ok, afterGt_eq hrest]
        congr 3
        omega
    · rw [if_neg hscript, if_neg hscript]
      by_cases hstyle : lowerName = "style".toList
      · rw [if_pos hstyle, if_pos hstyle]
        obtain ⟨hend, -, hrest⟩ := bodyEnd_eq hr "</style".toList (by decide)
          (forall_lt_of_all (by decide)) hpost
        rw [hend, ok_bind, hr.bound_eq, hrest.slice_eq, ok_bind, afterGt_eq hrest]
        refine ⟨tags, _, hopened, ?_⟩
        rw [pure_eq_ok]
        congr 3
        omega
      · rw [if_neg hstyle, if_neg hstyle]
        refine ⟨_, _, hh.openElement tag.name tag.site tag.inner tag.stop, ?_⟩
        rw [hnext]
        rfl

private theorem startsWith_cons_cons (a c : Char) (start s : List Char) :
    Text.startsWith (a :: start) (c :: s) = (decide (a = c) && Text.startsWith start s) := by
  by_cases h : a = c <;> simp [Text.startsWith, Text.stripStart?, h]

/-- The step at a `<` by what the text after it begins with. -/
theorem markupStep_eq_ite (place : Nat) (s : List Char) :
    markupStep settings script st place s =
      if Text.startsWith ['!', '-', '-'] s then
        .ok (match Text.find? "-->".toList (s.drop 1) with
          | some k => 1 + k + 3
          | none => s.length, st)
      else if Text.startsWith ['/'] s then .ok (closingStep st place (s.drop 1))
      else if Text.startsWith ['!'] s || Text.startsWith ['?'] s then .ok (lengthThrough '>' s, st)
      else match ComponentAudit.readTag settings .markup (fun _ _ => .ok []) st.count place s with
        | .error err => .error err
        | .ok none => .ok (0, st)
        | .ok (some tag) => tagStep script st place ('<' :: s) tag := by
  rw [markupStep.eq_def]
  split
  · next u =>
    have hstart : Text.startsWith ['!', '-', '-'] ('!' :: '-' :: '-' :: u) = true := rfl
    rw [if_pos hstart]
    show _ = Except.ok (match Text.find? "-->".toList ('-' :: '-' :: u) with
      | some k => 1 + k + 3
      | none => _, st)
    cases Text.find? "-->".toList ('-' :: '-' :: u) <;> rfl
  · rfl
  · next u hne =>
    rw [if_neg fun hstart => ?_]
    · rfl
    · obtain ⟨v, hv⟩ := Text.startsWith_iff_isPrefix.1 hstart
      exact hne v (List.cons.inj hv.symm).2
  · rfl
  · next hcomment hslash hbang hquery =>
    have hstarts : ∀ start : List Char, (∀ v, s = start ++ v → False) →
        Text.startsWith start s = false := fun start hstart =>
      Bool.eq_false_iff.2 fun hs => by
        obtain ⟨v, hv⟩ := Text.startsWith_iff_isPrefix.1 hs
        exact hstart v hv.symm
    rw [hstarts _ hcomment, hstarts _ hslash, hstarts _ hbang, hstarts _ hquery]
    rfl

/-- **Turns at a `<`.** A turn of the loop does what the step at that place does. -/
theorem ltTurn_matches (hr : MarkupRuns r settings script e) (hh : Holds r.text tags table st)
    (h : Span r.text n e ('<' :: s)) :
    MarkupMatches r.text (ltTurn r (tags, table) (offset r.text n)) n
      (markupStep settings script st n s) := by
  have hcomment : Text.startsWith "<!--".toList ('<' :: s) = Text.startsWith ['!', '-', '-'] s :=
    startsWith_cons_cons ..
  have hclosing : Text.startsWith "</".toList ('<' :: s) = Text.startsWith ['/'] s :=
    startsWith_cons_cons ..
  have hdecl : Text.startsWith "<!".toList ('<' :: s) = Text.startsWith ['!'] s :=
    startsWith_cons_cons ..
  have hproc : Text.startsWith "<?".toList ('<' :: s) = Text.startsWith ['?'] s :=
    startsWith_cons_cons ..
  have hgt : afterGt ('<' :: s) (offset r.text n) (offset r.text e) =
      offset r.text (n + 1 + lengthThrough '>' s) := by
    rw [afterGt_eq h, lengthThrough, lengthThrough, findChar?_cons]
    cases Text.findChar? '>' s <;> simp [Nat.add_comm, Nat.add_left_comm]
  rw [ltTurn, hr.bound_eq, h.slice_eq, ok_bind, hcomment, hclosing, hdecl, hproc, hgt,
    markupStep_eq_ite]
  by_cases hc : Text.startsWith ['!', '-', '-'] s = true
  -- Both sides look for `-->` from two characters on, so that `<!-->` is a whole comment.
  · rw [if_pos hc, if_pos hc]
    obtain ⟨u, rfl⟩ := Text.startsWith_iff_isPrefix.1 hc
    refine ⟨tags, table, hh, ?_⟩
    rw [pure_eq_ok]
    refine congrArg (fun i => Except.ok (Turn.next (tags, table) i)) ?_
    refine (commentStop_eq h).trans (congrArg (offset r.text) ?_)
    show (match Text.find? "-->".toList ('-' :: '-' :: u) with
        | some k => n + 2 + k + 3
        | none => n + 2 + (u.length + 2)) =
      n + 1 + (match Text.find? "-->".toList ('-' :: '-' :: u) with
        | some k => 1 + k + 3
        | none => u.length + 3)
    cases Text.find? "-->".toList ('-' :: '-' :: u) with
    | none =>
      have hlength : n + 2 + (u.length + 2) = n + 1 + (u.length + 3) := by omega
      exact hlength
    | some k =>
      have hlength : n + 2 + k + 3 = n + 1 + (1 + k + 3) := by omega
      exact hlength
  rw [if_neg hc, if_neg hc]
  by_cases hslash : Text.startsWith ['/'] s = true
  · rw [if_pos hslash, if_pos hslash]
    obtain ⟨u, rfl⟩ := Text.startsWith_iff_isPrefix.1 hslash
    exact closingTurn_matches hr hh h
  rw [if_neg hslash, if_neg hslash]
  by_cases hbang : (Text.startsWith ['!'] s || Text.startsWith ['?'] s) = true
  · rw [if_pos hbang, if_pos hbang]
    exact ⟨tags, table, hh, rfl⟩
  rw [if_neg hbang, if_neg hbang]
  rw [readTag_eq agrees_nothing r.settings .markup table h, hr.settings_eq, ← hh.count_eq]
  cases hread : ComponentAudit.readTag settings .markup (fun _ _ => .ok []) st.count n s with
  | error err => rfl
  | ok tag? =>
    cases tag? with
    | none =>
      refine ⟨tags, table, hh, ?_⟩
      rw [Nat.add_zero, ← h.offset_succ_of_lt (by decide)]
      rfl
    | some tag => exact startTurn_matches hr hh h hread

end Turns

/-! ### Whole texts -/

private theorem markupWalk_drop {settings : ScanSettings} {script : Bool → InnerScan}
    (st : MarkupState) (place : Nat) {skip : Nat} {s : List Char} (h : skip ≤ s.length) :
    markupWalk settings script st place skip s =
      markupWalk settings script st (place + skip) 0 (s.drop skip) := by
  induction s generalizing place skip with
  | nil =>
    obtain rfl : skip = 0 := Nat.le_zero.1 h
    rfl
  | cons c s ih =>
    cases skip with
    | zero => rfl
    | succ skip =>
      rw [markupWalk, ih _ (Nat.le_of_succ_le_succ h), List.drop_succ_cons, Nat.add_assoc,
        Nat.add_comm 1]

private theorem markupWalk_end {settings : ScanSettings} {script : Bool → InnerScan}
    (st : MarkupState) (place : Nat) {skip : Nat} {s : List Char} (h : s.length ≤ skip) :
    markupWalk settings script st place skip s = .ok (st.finish (place + s.length)) := by
  induction s generalizing place skip with
  | nil => cases skip <;> rfl
  | cons c s ih =>
    cases skip with
    | zero => cases h
    | succ skip =>
      rw [markupWalk, ih _ (Nat.le_of_succ_le_succ h), List.length_cons, Nat.add_assoc,
        Nat.add_comm 1]

/-- Nothing happens before the next `<`. -/
theorem markupWalk_find {settings : ScanSettings} {script : Bool → InnerScan} (st : MarkupState)
    (place : Nat) (s : List Char) :
    markupWalk settings script st place 0 s =
      match Text.findChar? '<' s with
      | none => .ok (st.finish (place + s.length))
      | some k => markupWalk settings script st (place + k) 0 (s.drop k) := by
  induction s generalizing place with
  | nil => rfl
  | cons c s ih =>
    rw [findChar?_cons]
    by_cases hc : c = '<'
    · rw [if_pos hc]
      rfl
    · rw [if_neg hc, markupWalk, if_neg hc, ih]
      cases Text.findChar? '<' s with
      | none => simp only [Option.map_none, List.length_cons, Nat.add_assoc, Nat.add_comm 1]
      | some k => simp only [Option.map_some, List.drop_succ_cons, Nat.add_assoc, Nat.add_comm 1]

/-- **Markup.** From any table and open elements that hold the state of the walk, the loop over the
bytes of the rest ends with the table of what the walk over its characters finds. -/
theorem markupLoop_eq {r : MarkupRun} {settings : ScanSettings} {script : Bool → InnerScan}
    {tags : List OpenTag} {table : List Site} {st : MarkupState}
    (hr : MarkupRuns r settings script e) (hh : Holds r.text tags table st)
    (h : Span r.text n e s) :
    (loop r.bound (markupTurn r) (fun st _ => st) (tags, table) (offset r.text n) >>=
        fun (tags, table) => endAll r.bound (tags.map OpenTag.mode) table) =
      lift ((markupWalk settings script st n 0 s).map (recorded r.text)) := by
  -- At the end of the text everything is closed.
  have hfinish : ∀ {st : MarkupState} {tags : List OpenTag} {table : List Site},
      Holds r.text tags table st →
      endAll r.bound (tags.map OpenTag.mode) table = .ok (recorded r.text (st.finish e)) := by
    rintro st _ _ ⟨rfl, rfl, -⟩
    have hend := @endAll_eq r.text e (st.elements.map frameOf) (recorded r.text st.found) []
    rw [length_recorded, close_frameOf] at hend
    rw [hr.bound_eq, map_mode_openTagsOf]
    simpa [MarkupState.finish, elementSites] using hend
  induction hlen : s.length using Nat.strongRecOn generalizing n s st tags table with
  | _ len ih =>
  rw [markupWalk_find]
  have hturn : markupTurn r (tags, table) (offset r.text n) =
      match bytesBefore s (Text.findChar? '<' s) with
      | none => .ok (.done (tags, table))
      | some k => ltTurn r (tags, table) (offset r.text n + k) := by
    rw [markupTurn, hr.bound_eq, h.slice_eq, ok_bind]
    rfl
  cases hk : Text.findChar? '<' s with
  | none =>
    rw [hk] at hturn
    dsimp only
    rw [← h.stop_eq]
    by_cases hto : offset r.text n < r.bound
    · rw [loop_done hto hturn, ok_bind]
      exact hfinish hh
    · rw [loop_finish (Nat.le_of_not_lt hto), ok_bind]
      exact hfinish hh
  | some k =>
    have hle := Nat.le_of_lt (findChar?_lt hk)
    obtain ⟨t, ht⟩ := getElem?_of_findChar? hk
    have hspan := h.drop hle
    rw [ht] at hspan
    have hto : offset r.text n < r.bound := by
      rw [hr.bound_eq]
      exact offset_lt_iff.2 (Nat.lt_of_le_of_lt (Nat.le_add_right n k) hspan.lt)
    rw [hk] at hturn
    dsimp only [bytesBefore, Option.map_some] at hturn ⊢
    rw [← (h.take hle).offset_stop] at hturn
    have hmatches := ltTurn_matches hr hh hspan
    rw [← hturn] at hmatches
    rw [ht, markupWalk, if_pos rfl]
    cases hstep : markupStep settings script st (n + k) t with
    | error err =>
      rw [hstep] at hmatches
      rw [loop_error hto hmatches]
      rfl
    | ok next =>
      obtain ⟨skip, st'⟩ := next
      rw [hstep] at hmatches
      obtain ⟨tags', table', hh', hnext⟩ := hmatches
      rw [loop_next hto hnext (offset_lt_iff.2 (by omega))]
      dsimp only
      by_cases hskip : skip ≤ t.length
      · rw [markupWalk_drop _ _ hskip]
        refine ih _ ?_ hh' (hspan.tail.drop hskip) rfl
        have hlength := congrArg List.length ht
        simp only [List.length_drop, List.length_cons] at hlength ⊢
        omega
      · have hlt : t.length < skip := Nat.lt_of_not_le hskip
        have hstop := hspan.tail.stop_eq
        have hend : r.bound ≤ offset r.text (n + k + 1 + skip) := by
          rw [hr.bound_eq, offset_le_iff]
          omega
        rw [markupWalk_end _ _ (Nat.le_of_lt hlt), loop_finish hend, ok_bind, ← hstop]
        exact hfinish hh'

/-- By bytes and by characters the same sites are found in markup. -/
theorem scanMarkup_eq (settings : ScanSettings) (text : List Char) (levels : Nat) :
    scanMarkup settings text levels [] 0 (Text.byteSize text) =
      lift ((ComponentAudit.scanMarkup settings levels text).map (recorded text)) := by
  have hr : MarkupRuns ⟨settings, text, scanScript settings text levels, Text.byteSize text⟩
      settings (ComponentAudit.scanScript settings levels) text.length :=
    ⟨rfl, scanScript_agrees settings text levels, (offset_length text).symm⟩
  have hh : Holds text [] [] {} := ⟨rfl, rfl, rfl⟩
  have hloop := markupLoop_eq hr hh (Span.whole text)
  rw [offset_zero] at hloop
  exact hloop

end ComponentAudit.Offset
