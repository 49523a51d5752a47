import ComponentAudit.Proofs.Extent.Stack
import ComponentAudit.Proofs.Invocation.Move
import ComponentAudit.Proofs.Offset.Extraction

/-!
# Extents of tags in a text

The extents of the start tags that a scan finds nest, whatever becomes of the markup: elements that
are never closed, closing tags that match nothing, tags that are read again as code.

A tag accounts for the stretch from its `<` to its `>`, in which an inner scan finds the sites of
its attribute expressions (`readTag_nested`). Each move of a scan keeps the frames stacked up to
the place that it goes on from (`ScriptMove.stacked`, `MarkupMove.stacked`), so that what is left
open at the end of the region closes there, with extents that nest.
-/

namespace ComponentAudit

/-! ### Tags -/

/-- Whatever region of the text the scan is given, the extents of the tags it finds nest in that
region. -/
def InnerScan.Nests (text : List Char) (scan : InnerScan) : Prop :=
  ∀ (count : Nat) (region : Region) (found : List Site),
    region.chars <+: text.drop region.start → scan count region = .ok found →
      Nested text (region.start + region.chars.length) region.start
        (region.start + region.chars.length) found

private theorem InnerScan.nests_nothing {text : List Char} :
    InnerScan.Nests text fun _ _ => .ok [] := by
  intro _ _ found _ h
  cases h
  exact .nil

section Tag

variable {text : List Char} {scan : InnerScan} {flavor : Flavor} {limit start : Nat}

/-- An attribute adds extents of its own stretch, and leaves the start of the site. -/
theorem TagState.addAttribute_nested (hscan : scan.Nests text) {st st' : TagState} {place : Nat}
    {s : List Char} {a : Attribute} (htext : s <+: text.drop place)
    (hlimit : place + s.length ≤ limit) (hstart : start ≤ place)
    (hinner : Nested text limit start place st.inner) (hsite : ∀ x ∈ st.site, x.start = start)
    (ha : readAttribute? flavor s = some a) (h : st.addAttribute flavor scan place a = .ok st') :
    Nested text limit start (place + a.length) st'.inner ∧ ∀ x ∈ st'.site, x.start = start := by
  obtain ⟨found, hfound, hscanned, hsite'⟩ := TagState.addAttribute_eq_ok h
  refine ⟨?_, ?_⟩
  · rw [hfound]
    rcases hscanned with rfl | ⟨e, he, hscanned⟩
    · exact hinner.widen (Nat.le_add_right _ _)
    · obtain ⟨hbegin, hle⟩ := readAttribute?_expr ha he
      obtain ⟨pre, post, hs, hvalue⟩ := Offset.exists_brace_of_readAttribute? ha he
      have hlength := congrArg List.length hs
      simp only [List.length_append, List.length_cons] at hlength
      have hnew := hscan _ _ _ (hbegin.trans (prefix_drop_add htext a.valueStart)) hscanned
      dsimp only at hnew
      exact (hnew.mono (by omega) (Nat.le_add_right _ _) (by omega)).append_of_over hinner hstart
        (Nat.le_add_right _ _)
  · rcases hsite' with hsame | ⟨x, x', hx, happly, hx'⟩
    · rwa [hsame]
    · intro y hy
      rw [hx'] at hy
      cases hy
      have hinvocation := invocation_of_apply? happly
      exact (congrArg Invocation.start hinvocation).trans (hsite x hx)

/-- The sites in the attributes of a tag nest in what has been read of it, whose own site begins at
its `<`. -/
theorem tagWalk_nested (hscan : scan.Nests text) {name : List Char} {tag : Tag}
    (chars : List Char) :
    ∀ (st : TagState) (place skip : Nat), start ≤ place → chars <+: text.drop place →
      place + chars.length ≤ limit → Nested text limit start (place + skip) st.inner →
      (∀ x ∈ st.site, x.start = start) →
      tagWalk flavor scan name st place skip chars = .ok (some tag) →
        Nested text limit start tag.stop tag.inner ∧ ∀ x ∈ tag.site, x.start = start := by
  -- The characters that are still passed over belong to a part whose sites are already among
  -- `st.inner`, so these nest up to `place + skip`.
  induction chars with
  | nil => intro st place skip _ _ _ _ _ h; cases skip <;> cases h
  | cons c rest ih =>
    intro st place skip hstart htext hlimit hinner hsite h
    have hrest : rest <+: text.drop (place + 1) := prefix_drop_add htext 1
    have hlimit' : place + 1 + rest.length ≤ limit := by
      rw [List.length_cons] at hlimit
      omega
    cases skip with
    | succ skip =>
      refine ih st (place + 1) skip (by omega) hrest hlimit' ?_ hsite h
      exact hinner.widen (by omega)
    | zero =>
      rw [tagWalk] at h
      split at h
      · cases h
        exact ⟨hinner.widen (Nat.le_add_right _ _), hsite⟩
      · cases h
      · exact ih _ _ _ (by omega) hrest hlimit' (hinner.widen (by omega)) hsite h
      · refine ih { st with site := st.site.map fun s => { s with spread := true } } _ _ (by omega)
          hrest hlimit' (hinner.widen (by omega)) (fun x hx => ?_) h
        obtain ⟨y, hy, rfl⟩ := Option.map_eq_some_iff.1 hx
        exact hsite y hy
      · next a hpart =>
        split at h
        · cases h
        · next st' hadd =>
          obtain ⟨hinner', hsite'⟩ := TagState.addAttribute_nested hscan htext hlimit hstart
            hinner hsite (readAttribute?_of_tagPart hpart) hadd
          exact ih st' _ _ (by omega) hrest hlimit' (hinner'.widen (by omega)) hsite' h

/-- The site of a tag starts at its `<`. -/
theorem start_of_tagSite {settings : ScanSettings} {count : Nat} {name : List Char}
    {site : Option Site} (h : tagSite settings count name start = .ok site) :
    ∀ x ∈ site, x.start = start := by
  intro x hx
  rw [tagSite] at h
  split at h
  · cases h
    cases hx
  · rw [newSite] at h
    split at h
    · cases h
    · cases h
      cases hx
      rfl

/-- The extents in the attributes of a tag nest before its `>`, and its own site starts at its
`<`. -/
theorem readTag_nested {settings : ScanSettings} (hscan : scan.Nests text) {count : Nat}
    {rest : List Char} {tag : Tag} (htext : '<' :: rest <+: text.drop start)
    (hlimit : start + 1 + rest.length ≤ limit)
    (h : readTag settings flavor scan count start rest = .ok (some tag)) :
    Nested text limit start tag.stop tag.inner ∧ (∀ x ∈ tag.site, x.start = start) ∧
      start < tag.stop ∧ tag.stop ≤ start + 1 + rest.length := by
  obtain ⟨pre, post, hgt, hstop⟩ := Offset.exists_gt_of_readTag h
  have hbounds : start < tag.stop ∧ tag.stop ≤ start + 1 + rest.length := by
    have := congrArg List.length hgt
    simp only [List.length_append, List.length_cons] at this
    omega
  suffices hsites : Nested text limit start tag.stop tag.inner ∧ ∀ x ∈ tag.site, x.start = start by
    exact ⟨hsites.1, hsites.2, hbounds⟩
  cases rest with
  | nil => cases h
  | cons c rest =>
    rw [readTag] at h
    split at h
    · cases h
      refine ⟨.nil, fun x hx => ?_⟩
      cases hx
    split at h
    · cases h
    dsimp only at h
    split at h
    · cases h
    split at h
    · cases h
    next site hsite =>
    have hname := (List.takeWhile_sublist isTagChar (l := c :: rest)).length_le
    have hattributes := prefix_drop_add (prefix_drop_add htext 1)
      ((c :: rest).takeWhile isTagChar).length
    refine tagWalk_nested hscan _ _ _ _ (by omega) hattributes ?_ .nil (start_of_tagSite hsite) h
    rw [List.drop_one, List.tail_cons, List.length_drop]
    omega

/-- When its element ends at its `>`, the extent of a tag contains those in its attributes. -/
theorem nested_sites_of_readTag {settings : ScanSettings} (hscan : scan.Nests text) {count : Nat}
    {rest : List Char} {tag : Tag} (htext : '<' :: rest <+: text.drop start)
    (hlimit : start + 1 + rest.length ≤ limit)
    (h : readTag settings flavor scan count start rest = .ok (some tag)) :
    Nested text limit start tag.stop (tag.sites tag.stop) := by
  obtain ⟨hinner, hsite, hlt, hle⟩ := readTag_nested hscan htext hlimit h
  have hframe : (Frame.children tag.name tag.site tag.inner).Nests text limit start tag.stop :=
    ⟨hinner, fun x hx => by rw [hsite x hx]; omega⟩
  exact (hframe.close (Nat.le_refl _) (Nat.le_trans hle hlimit)).1

end Tag

/-! ### Calls -/

private theorem callArguments_stop (place : Nat) (s : List Char) :
    place ≤ (callArguments place s).2 ∧ (callArguments place s).2 ≤ place + s.length := by
  unfold callArguments
  split
  · next k hclose =>
    obtain ⟨-, d, t, hdrop, -⟩ := Offset.exists_closer_of_closeLength? hclose
    have hlength := congrArg List.length hdrop
    rw [List.length_drop, List.length_cons] at hlength
    dsimp only
    omega
  · dsimp only
    omega

/-- A call starts at its factory, and ends after it in the region. -/
theorem bounds_of_callSite {settings : ScanSettings} {count start place : Nat} {s : List Char}
    {site : Site} (h : callSite settings count start place s = .ok (some site)) :
    site.start = start ∧ place ≤ site.stop ∧ site.stop ≤ place + s.length := by
  refine ⟨(callSite_real h).1, ?_⟩
  rw [callSite] at h
  split at h
  · next t ht =>
    have hlength := length_skipSpace s
    rw [ht, List.length_cons] at hlength
    have hstop := callArguments_stop (place + Script.spaceLength s + 1) t
    dsimp only at h
    split at h
    · cases h
    split at h
    · cases h
    split at h
    · cases h
    split at h
    · cases h
      simp only [Site.endingAt]
      omega
    · split at h
      · cases h
      · next happly =>
        cases h
        obtain ⟨o, -, rfl⟩ := Option.map_eq_some_iff.1 happly
        simp only [Site.endingAt]
        omega
  · cases h

/-! ### Script code -/

section Script

variable {text : List Char} {limit lo : Nat} {s : ScriptScan}

/-- The frames stay stacked, up to the place that the scan goes on from. -/
theorem ScriptMove.stacked (hscan : s.scan.Nests text) {st st' : ScriptState} {place skip : Nat}
    {c : Char} {rest : List Char} (htext : c :: rest <+: text.drop place)
    (hlimit : place + 1 + rest.length ≤ limit) (hst : Stacked text limit lo place st.frames)
    (h : ScriptMove s st place c rest skip st') :
    Stacked text limit lo (place + 1 + min skip rest.length) st'.frames := by
  have hnext : place ≤ place + 1 + min skip rest.length := by omega
  cases h with
  | pass => exact hst.mono hnext
  | enter => exact .cons hst hnext Nested.nil
  | openBrace => exact hst.openBrace.mono hnext
  | closeBrace => exact hst.closeBrace.mono hnext
  | close hle hclose =>
    rw [Nat.min_eq_left hle]
    exact hst.closeElements hclose (by omega) (by omega)
  | selfClosing hc htag =>
    subst hc
    obtain ⟨-, -, hlt, hle⟩ := readTag_nested hscan htext hlimit htag
    have hsites := nested_sites_of_readTag hscan htext hlimit htag
    exact hst.record (hsites.widen (by omega)) hnext
  | openTag hc htag =>
    subst hc
    obtain ⟨hinner, hsite, hlt, hle⟩ := readTag_nested hscan htext hlimit htag
    exact .cons hst hnext ⟨hinner.widen (by omega), fun x hx => by rw [hsite x hx]; omega⟩
  | @call site hc hsite =>
    have hpath := Offset.pathLength_le (c :: rest)
    obtain ⟨hstart, hle, hstop⟩ := bounds_of_callSite hsite
    rw [List.length_drop] at hstop
    rw [List.length_cons] at hpath hstop
    refine hst.record (.singleton (by omega) fun htag => absurd hc ?_) hnext
    -- What begins an identifier is no `<`.
    have hhead : text[place]? = some c := by
      obtain ⟨t, ht⟩ := htext
      rw [← List.head?_drop, ← ht]
      rfl
    rw [Site.IsTag, hstart, hhead] at htag
    rw [Option.some.inj htag]
    decide

/-- **A walk through code** whose frames nest in each other up to the place it has come to ends with
sites that nest. -/
theorem scriptWalk_nested (hscan : s.scan.Nests text) {found : List Site} (chars : List Char) :
    ∀ (st : ScriptState) (place : Nat) (before : List Char) (skip : Nat),
      chars <+: text.drop place → place + chars.length = limit →
      Stacked text limit lo (place + min skip chars.length) st.frames →
      scriptWalk s st place before skip chars = .ok found → Nested text limit lo limit found := by
  induction chars with
  | nil =>
    intro st place before skip _ hlimit hst h
    have hfound : closeAll place st.frames = found := by cases skip <;> exact Except.ok.inj h
    subst hfound
    have hlimit' : place = limit := hlimit
    subst hlimit'
    exact (hst.nested (by simp) (Nat.le_refl _)).1
  | cons c rest ih =>
    intro st place before skip htext hlimit hst h
    have hrest : rest <+: text.drop (place + 1) := prefix_drop_add htext 1
    rw [List.length_cons] at hlimit
    cases skip with
    | succ skip =>
      refine ih st (place + 1) (c :: before) skip hrest (by omega) (hst.mono ?_) h
      rw [List.length_cons]
      omega
    | zero =>
      rw [scriptWalk] at h
      split at h
      · cases h
      · next skip st' hstep =>
        rw [Nat.zero_min, Nat.add_zero] at hst
        have hst' := (scriptStep_move hstep).stacked hscan htext (by omega) hst
        exact ih st' (place + 1) (c :: before) skip hrest (by omega) hst' h

end Script

/-- A scan of a region nests its sites if the scan of what is nested in it does. -/
theorem scanRegion_nests {settings : ScanSettings} {jsx : Bool} {scan : InnerScan}
    {text : List Char} (hscan : scan.Nests text) :
    InnerScan.Nests text (scanRegion settings jsx scan) := by
  intro count region found htext h
  refine scriptWalk_nested (s := ⟨settings, jsx, scan, region.lead⟩) hscan region.chars
    ⟨[.code 0 []], count⟩ region.start [] 0 htext rfl ?_ h
  rw [Nat.zero_min]
  exact .cons (.nil (Nat.le_refl _)) (Nat.le_refl _) Nested.nil

/-- The extents of the tags in a region of code nest, at every depth of attribute expressions. -/
theorem scanScript_nests (settings : ScanSettings) (text : List Char) :
    ∀ (levels : Nat) (jsx : Bool), (scanScript settings levels jsx).Nests text
  | 0, _ => scanRegion_nests InnerScan.nests_nothing
  | levels + 1, _ => scanRegion_nests (scanScript_nests settings text levels true)

/-! ### Template markup -/

/-- The open elements and the sites outside of them, as frames. -/
def MarkupState.frames (st : MarkupState) : List Frame :=
  st.elements.map Offset.frameOf ++ [.code 0 st.found]

section Markup

variable {text : List Char} {limit : Nat} {settings : ScanSettings} {script : Bool → InnerScan}
  {st : MarkupState}

/-- Sites that are put into the innermost open element are recorded in the innermost frame. -/
theorem MarkupState.frames_place (st : MarkupState) (sites : List Site) :
    (st.place sites).frames = recordSites sites st.frames := by
  obtain ⟨elements, found, count⟩ := st
  cases elements <;> rfl

private theorem MarkupState.frames_record (st : MarkupState) (sites : List Site) :
    (st.record sites).frames = recordSites sites st.frames :=
  st.frames_place sites

/-- When the markup ends, the open elements close as frames do. -/
theorem MarkupState.closeAll_frames (st : MarkupState) (stop : Nat) :
    closeAll stop st.frames = st.finish stop := by
  rw [MarkupState.finish, ← Offset.close_frameOf, MarkupState.frames, closeAll,
    List.flatMap_append]
  simp [closeAll, Frame.close]

private theorem Stacked.closeNamed {lo hi stop : Nat} {name : List Char} {sites : List Site}
    {elements : List OpenElement} (h : Stacked text limit lo hi st.frames)
    (hclose : closeNamed? name stop st.elements = some (sites, elements)) (hstop : hi ≤ stop)
    (hlimit : stop ≤ limit) :
    Stacked text limit lo stop ({ st with elements }.place sites).frames := by
  have hclosed := Offset.closingNamed?_openTagsOf name stop 0 st.elements
  rw [hclose] at hclosed
  obtain ⟨closed, helements, rfl, -⟩ := hclosed
  rw [MarkupState.frames, helements, List.map_append, List.append_assoc] at h
  rw [MarkupState.frames_place, ← Offset.close_frameOf]
  exact h.close hstop hlimit

/-- A tag in markup has no sites in its attributes. -/
theorem inner_of_tagWalk {flavor : Flavor} {name : List Char} {tag : Tag} (chars : List Char) :
    ∀ (st : TagState) (place skip : Nat), st.inner = [] →
      tagWalk flavor (fun _ _ => .ok []) name st place skip chars = .ok (some tag) →
        tag.inner = [] := by
  induction chars with
  | nil => intro st place skip _ h; cases skip <;> cases h
  | cons c rest ih =>
    intro st place skip hinner h
    cases skip with
    | succ skip => exact ih st _ skip hinner h
    | zero =>
      rw [tagWalk] at h
      split at h
      · cases h
        exact hinner
      · cases h
      · exact ih _ _ _ hinner h
      · exact ih { st with site := st.site.map fun s => { s with spread := true } } _ _ hinner h
      · split at h
        · cases h
        · next hadd =>
          obtain ⟨found, hfound, hnone | ⟨e, -, hnone⟩, -⟩ := TagState.addAttribute_eq_ok hadd
          · exact ih _ _ _ (by rw [hfound, hnone, hinner]; rfl) h
          · cases hnone
            exact ih _ _ _ (by rw [hfound, hinner]; rfl) h

private theorem inner_of_readTag {flavor : Flavor} {count start : Nat} {rest : List Char}
    {tag : Tag}
    (h : readTag settings flavor (fun _ _ => .ok []) count start rest = .ok (some tag)) :
    tag.inner = [] := by
  cases rest with
  | nil => cases h
  | cons c rest =>
    rw [readTag] at h
    split at h
    · cases h
      rfl
    split at h
    · cases h
    dsimp only at h
    split at h
    · cases h
    split at h
    · cases h
    · exact inner_of_tagWalk _ _ _ _ rfl h

/-- The extent of an element whose body is no content is empty. -/
theorem nested_sites_of_body {count start : Nat} {rest : List Char} {tag : Tag}
    (htext : '<' :: rest <+: text.drop start) (hlimit : start + 1 + rest.length ≤ limit)
    (h : readTag settings .markup (fun _ _ => .ok []) count start rest = .ok (some tag)) :
    Nested text limit start tag.stop (tag.sites start) := by
  obtain ⟨-, hsite, hlt, -⟩ := readTag_nested InnerScan.nests_nothing htext hlimit h
  rw [Tag.sites, inner_of_readTag h, List.nil_append]
  cases htag : tag.site with
  | none => exact .nil
  | some x =>
    have hx : x.start = start := hsite x htag
    have hbounds : start ≤ x.start ∧ x.start ≤ start ∧ start ≤ limit := by omega
    exact .singleton hbounds fun _ => Nat.le_of_lt hlt

/-- The frames stay stacked, up to the place that the scan goes on from. -/
theorem MarkupMove.stacked (hscript : ∀ jsx, (script jsx).Nests text) {st' : MarkupState}
    {place skip lo : Nat} {rest : List Char} (htext : '<' :: rest <+: text.drop place)
    (hlimit : place + 1 + rest.length ≤ limit) (hst : Stacked text limit lo place st.frames)
    (h : MarkupMove settings script st place rest skip st') :
    Stacked text limit lo (place + 1 + min skip rest.length) st'.frames := by
  have hnext : place ≤ place + 1 + min skip rest.length := by omega
  cases h with
  | pass => exact hst.mono hnext
  | close hle hclose =>
    rw [Nat.min_eq_left hle]
    exact hst.closeNamed hclose (by omega) (by omega)
  | void htag =>
    obtain ⟨-, -, hlt, hle⟩ := readTag_nested InnerScan.nests_nothing htext hlimit htag
    have hsites := nested_sites_of_readTag InnerScan.nests_nothing htext hlimit htag
    rw [MarkupState.frames_record]
    exact hst.record (hsites.widen (by omega)) hnext
  | @code tag jsx length after found htag hle hfound =>
    obtain ⟨-, -, hlt, hstop⟩ := readTag_nested InnerScan.nests_nothing htext hlimit htag
    have hbody := prefix_drop_add htext (tag.stop - place)
    rw [Nat.add_sub_cancel' (Nat.le_of_lt hlt)] at hbody
    have hcode := hscript _ _ _ _ ((List.take_prefix length _).trans hbody) hfound
    simp only [List.length_take, Nat.min_eq_left hle] at hcode
    rw [List.length_drop, List.length_cons] at hle
    rw [MarkupState.frames_record, MarkupState.frames_record]
    -- The code follows the tag, whose own extent is empty.
    refine (hst.record (nested_sites_of_body htext hlimit htag) (Nat.le_of_lt hlt)).record
      (hcode.mono (by omega) (Nat.le_refl _) ?_) ?_ <;> omega
  | style htag =>
    obtain ⟨-, -, hlt, hstop⟩ := readTag_nested InnerScan.nests_nothing htext hlimit htag
    rw [MarkupState.frames_record]
    exact hst.record ((nested_sites_of_body htext hlimit htag).widen (by omega)) hnext
  | openTag htag =>
    obtain ⟨hinner, hsite, hlt, hle⟩ := readTag_nested InnerScan.nests_nothing htext hlimit htag
    exact .cons hst hnext ⟨hinner.widen (by omega), fun x hx => by rw [hsite x hx]; omega⟩

/-- **A walk through markup** has the same invariant as one through code, with its open elements as
frames. -/
theorem markupWalk_nested (hscript : ∀ jsx, (script jsx).Nests text) {found : List Site}
    (chars : List Char) :
    ∀ (st : MarkupState) (place skip : Nat), chars <+: text.drop place →
      place + chars.length = limit →
      Stacked text limit 0 (place + min skip chars.length) st.frames →
      markupWalk settings script st place skip chars = .ok found →
        Nested text limit 0 limit found := by
  -- The minimum spares a proof that no step passes over more characters than are left.
  induction chars with
  | nil =>
    intro st place skip _ hlimit hst h
    have hfound : st.finish place = found := by cases skip <;> exact Except.ok.inj h
    have hlimit' : place = limit := hlimit
    subst hlimit'
    rw [← hfound, ← st.closeAll_frames]
    exact (hst.nested (by simp) (Nat.le_refl _)).1
  | cons c rest ih =>
    intro st place skip htext hlimit hst h
    have hrest : rest <+: text.drop (place + 1) := prefix_drop_add htext 1
    rw [List.length_cons] at hlimit
    cases skip with
    | succ skip =>
      refine ih st (place + 1) skip hrest (by omega) (hst.mono ?_) h
      rw [List.length_cons]
      omega
    | zero =>
      rw [Nat.zero_min, Nat.add_zero] at hst
      rw [markupWalk] at h
      split at h
      · next hc =>
        subst hc
        split at h
        · cases h
        · next skip st' hstep =>
          have hst' := (markupStep_move hstep).stacked hscript htext (by omega) hst
          exact ih st' (place + 1) skip hrest (by omega) hst' h
      · exact ih st (place + 1) 0 hrest (by omega) (hst.mono (by omega)) h

end Markup

/-! ### Whole texts -/

/-- **The sites of a text nest.** They are within the text, and two tags are apart or one is inside
the other. -/
theorem scanText_nested {options : ExtractOptions} {dialect : Dialect} {text : List Char}
    {found : List Site} (h : scanText options dialect text = .ok found) :
    Nested text text.length 0 text.length found := by
  cases dialect with
  | script jsx =>
    have hnested := scanScript_nests ⟨options.marker.toList, options.maxSites⟩ text
      options.maxDepth jsx 0 (Region.ofText text) found (List.prefix_refl _) h
    simpa [Region.ofText] using hnested
  | template =>
    refine markupWalk_nested
      (scanScript_nests ⟨options.marker.toList, options.maxSites⟩ text options.maxDepth) text {}
      0 0 (List.prefix_refl _) (Nat.zero_add _) ?_ h
    exact .cons (.nil (Nat.le_refl _)) (Nat.zero_le _) Nested.nil

/-- The extents of sites lie in a text of the given length, and those of the start tags among them
nest: of two, the later one begins after the earlier one or ends within it. -/
def ExtentsNest (length : Nat) (isTag : Nat → Prop) (sites : List Site) : Prop :=
  (∀ s ∈ sites, s.start ≤ s.stop ∧ s.stop ≤ length) ∧
    ∀ s ∈ sites, ∀ t ∈ sites, isTag s.start → isTag t.start → s.start < t.start →
      s.stop ≤ t.start ∨ t.stop ≤ s.stop

/-- **Extents of tags nest.** When the scan of a text succeeds, every site ends in the text and not
before it starts, and of two sites of start tags the later one begins after the end of the earlier
one or ends by it, in either dialect and however the markup is formed. The same holds of the table
of the run on byte offsets, by bytes. -/
theorem scanText_tag_extents_nest {options : ExtractOptions} {dialect : Dialect}
    {text : List Char} {found : List Site} (h : scanText options dialect text = .ok found) :
    ExtentsNest text.length (fun p => text[p]? = some '<') found ∧
      ∃ table, Offset.scanText options dialect text = .ok table ∧
        ExtentsNest (Text.byteSize text) (fun i => Offset.byteAt text i = .ok '<') table := by
  have hnested := scanText_nested h
  have htraced := scanText_traced h
  have horder := List.pairwise_map.1 htraced.backwards
  have hextents : ExtentsNest text.length (fun p => text[p]? = some '<') found := by
    refine ⟨fun s hs => (hnested.bounds s hs).2, fun s hs t ht hstag httag hlt => ?_⟩
    obtain ⟨i, hi, rfl⟩ := List.getElem_of_mem hs
    obtain ⟨j, hj, rfl⟩ := List.getElem_of_mem ht
    -- Sites go strictly backwards, so the later one stands before the earlier one.
    have hji : j < i := by
      rcases Nat.lt_trichotomy i j with hij | rfl | hji
      · exact absurd (List.pairwise_iff_getElem.1 horder i j hi hj hij) (Nat.lt_asymm hlt)
      · exact absurd hlt (Nat.lt_irrefl _)
      · exact hji
    exact List.pairwise_iff_getElem.1 hnested.nests j i hj hi hji hstag httag
  refine ⟨hextents, Offset.recorded text found, ?_, ?_⟩
  · rw [Offset.scanText_eq, h]
    rfl
  · have hinside : ∀ s ∈ found, s.start < text.length := fun s hs =>
      (htraced.bounds _ (List.mem_map_of_mem hs)).2
    refine ⟨fun s hs => ?_, fun s hs t ht hstag httag hlt => ?_⟩
    · obtain ⟨s', hs', rfl⟩ := Offset.mem_recorded_iff.1 hs
      obtain ⟨hle, hstop⟩ := hextents.1 s' hs'
      rw [← Offset.offset_length]
      exact ⟨Offset.offset_le_iff.2 hle, Offset.offset_le_iff.2 hstop⟩
    · obtain ⟨s', hs', rfl⟩ := Offset.mem_recorded_iff.1 hs
      obtain ⟨t', ht', rfl⟩ := Offset.mem_recorded_iff.1 ht
      have hnest := hextents.2 s' hs' t' ht'
        ((Offset.byteAt_offset_iff (hinside s' hs') (by decide)).1 hstag)
        ((Offset.byteAt_offset_iff (hinside t' ht') (by decide)).1 httag)
        (Offset.offset_lt_iff.1 hlt)
      exact hnest.imp Offset.offset_le_iff.2 Offset.offset_le_iff.2

/-- A closing tag ends the child that is still open as well, and what follows is never closed. -/
theorem scanText_tag_extents_nest_unclosed :
    let text := "<va-card>é<va-link></va-card><va-icon>".toList
    let found := [⟨"va-icon", "va-icon", 29, 38, {}, false⟩,
      ⟨"va-link", "va-link", 10, 29, {}, false⟩, ⟨"va-card", "va-card", 0, 29, {}, false⟩]
    scanText {} .template text = .ok found ∧
      ExtentsNest 38 (fun p => text[p]? = some '<') found ∧
      ∃ table, Offset.scanText {} .template text = .ok table ∧
        ExtentsNest 39 (fun i => Offset.byteAt text i = .ok '<') table := by
  have hscan : scanText {} .template "<va-card>é<va-link></va-card><va-icon>".toList =
      .ok [⟨"va-icon", "va-icon", 29, 38, {}, false⟩, ⟨"va-link", "va-link", 10, 29, {}, false⟩,
        ⟨"va-card", "va-card", 0, 29, {}, false⟩] := by decide +kernel
  exact ⟨hscan, scanText_tag_extents_nest hscan⟩

end ComponentAudit
