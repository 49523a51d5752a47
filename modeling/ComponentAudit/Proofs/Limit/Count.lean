import ComponentAudit.Proofs.Invocation.Move
import ComponentAudit.Proofs.Limit.CutOff
import ComponentAudit.Proofs.Location
import ComponentAudit.Proofs.Offset.Markup

/-!
# Limits on the size of a result

A result keeps to the limit on sites, which is an invariant of the scan: the number of sites
recorded so far counts the sites that are held anywhere in the state, and never goes beyond the
limit (`TagState.Counts`, `ScriptState.Counts`, `MarkupState.Counts`). Only a new site raises the
number, and that is where the limit is checked; what closes only moves sites about.

`extract_under_limits` puts this together with the comparison of two limits: they cut off a result
and do not change it.
-/

namespace ComponentAudit

/-! ### The number of sites -/

/-- The scan does not record more than `n` sites in all. -/
def InnerScan.Within (n : Nat) (scan : InnerScan) : Prop :=
  ∀ (count : Nat) (region : Region) (found : List Site),
    count ≤ n → scan count region = .ok found → count + found.length ≤ n

theorem InnerScan.within_nothing {n : Nat} : InnerScan.Within n fun _ _ => .ok [] := by
  intro count _ found hcount h
  cases h
  exact hcount

/-- A tag has as many sites as invocations, wherever its element ends. -/
theorem Tag.length_sites (t : Tag) (stop : Nat) :
    (t.sites stop).length = t.invocations.length := by
  rw [← t.map_invocation_sites stop, List.length_map]

section Readers

variable {settings : ScanSettings} {flavor : Flavor} {scan : InnerScan} {n c : Nat}

private theorem lt_of_newSite {count : Nat} {tag name : List Char} {start : Nat} {site : Site}
    (h : newSite settings count tag name start = .ok site) : count < settings.maxSites := by
  rw [newSite] at h
  split at h
  · cases h
  · omega

/-- The state counts its own sites on top of the `c` before them, within the limit. -/
def TagState.Counts (c n : Nat) (st : TagState) : Prop :=
  st.count = c + st.invocations.length ∧ st.count ≤ n

/-- An attribute adds the sites in its value and no others. -/
theorem TagState.exists_of_addAttribute {st st' : TagState} {place : Nat} {a : Attribute}
    (h : st.addAttribute flavor scan place a = .ok st') :
    ∃ found, Offset.valueSites scan flavor st.count place a = .ok found ∧
      st'.count = st.count + found.length ∧
      st'.invocations.length = st.invocations.length + found.length := by
  rw [Offset.addAttribute_eq] at h
  split at h
  · cases h
  next found hfound =>
  have hlength : ∀ site : Option Site, site.toList.length = st.site.toList.length →
      (TagState.invocations ⟨site, found ++ st.inner, st.count + found.length⟩).length =
        st.invocations.length + found.length := by
    intro site hsite
    simp only [TagState.invocations, List.length_map, List.length_append, hsite]
    omega
  split at h
  · cases h
    exact ⟨found, hfound, rfl, hlength st.site rfl⟩
  · next site hsite =>
    split at h
    · cases h
    · cases h
      exact ⟨found, hfound, rfl, hlength (some _) (by rw [hsite]; rfl)⟩

/-- The sites in the value of an attribute are counted. -/
theorem TagState.Counts.addAttribute {st st' : TagState} (hst : st.Counts c n)
    (hscan : scan.Within n) {place : Nat} {a : Attribute}
    (h : st.addAttribute flavor scan place a = .ok st') : st'.Counts c n := by
  obtain ⟨hcount, hle⟩ := hst
  obtain ⟨found, hfound, hcount', hlength⟩ := TagState.exists_of_addAttribute h
  have hfound' : st.count + found.length ≤ n := by
    unfold Offset.valueSites at hfound
    split at hfound
    · exact hscan _ _ _ hle hfound
    · cases hfound
      exact hle
  exact ⟨by omega, by omega⟩

/-- A change to the site of a tag adds no site. -/
theorem TagState.Counts.of_site_map {st : TagState} (hst : st.Counts c n) (f : Site → Site) :
    TagState.Counts c n { st with site := st.site.map f } := by
  obtain ⟨site, inner, count⟩ := st
  cases site <;> simpa [TagState.Counts, TagState.invocations] using hst

private theorem tagWalk_counts (hscan : scan.Within n) {name : List Char} {tag : Tag}
    (chars : List Char) :
    ∀ (st : TagState) (place skip : Nat), st.Counts c n →
      tagWalk flavor scan name st place skip chars = .ok (some tag) →
        c + tag.invocations.length ≤ n := by
  induction chars with
  | nil => intro st place skip _ h; cases skip <;> cases h
  | cons d rest ih =>
    intro st place skip hst h
    cases skip with
    | succ skip => exact ih st (place + 1) skip hst h
    | zero =>
      rw [tagWalk] at h
      split at h
      · cases h
        exact hst.1 ▸ hst.2
      · cases h
      · exact ih _ _ _ hst h
      · exact ih _ _ _ (hst.of_site_map _) h
      · split at h
        · cases h
        · next hadd => exact ih _ _ _ (hst.addAttribute hscan hadd) h

/-- A tag begins with its own site, if it has one. -/
theorem TagState.counts_of_tagSite {count start : Nat} (hcount : count ≤ settings.maxSites)
    {name : List Char} {site : Option Site} (h : tagSite settings count name start = .ok site) :
    TagState.Counts count settings.maxSites ⟨site, [], count + site.toList.length⟩ := by
  refine ⟨by simp [TagState.invocations], ?_⟩
  rw [tagSite] at h
  split at h
  · cases h
    exact hcount
  · next canonical _ =>
    cases hnew : newSite settings count name canonical start with
    | error e =>
      rw [hnew] at h
      cases h
    | ok site' =>
      rw [hnew] at h
      cases h
      exact lt_of_newSite hnew

/-- The sites of a tag are within the limit. -/
theorem readTag_counts (hscan : scan.Within settings.maxSites) {count start : Nat}
    (hcount : count ≤ settings.maxSites) {s : List Char} {tag : Tag}
    (h : readTag settings flavor scan count start s = .ok (some tag)) :
    count + tag.invocations.length ≤ settings.maxSites := by
  cases s with
  | nil => cases h
  | cons d s =>
    rw [readTag] at h
    split at h
    · cases h
      exact hcount
    split at h
    · cases h
    dsimp only at h
    split at h
    · cases h
    split at h
    · cases h
    next site hsite =>
    exact tagWalk_counts hscan _ _ _ _ (TagState.counts_of_tagSite hcount hsite) h

private theorem callSite_counts {count start place : Nat} {s : List Char} {site : Site}
    (h : callSite settings count start place s = .ok (some site)) :
    count < settings.maxSites := by
  rw [callSite] at h
  split at h
  · dsimp only at h
    split at h
    · cases h
    split at h
    · cases h
    split at h
    · cases h
    next hnew => exact lt_of_newSite hnew
  · cases h

end Readers

/-- The state counts the sites in its frames on top of the `c` before them, within the limit. -/
def ScriptState.Counts (c n : Nat) (st : ScriptState) : Prop :=
  st.count = c + (invocationsOf st.frames).length ∧ st.count ≤ n

section Script

variable {s : ScriptScan} {c : Nat} {st st' : ScriptState}

/-- A step that moves the sites from frame to frame. -/
theorem ScriptState.Counts.of_eq {n : Nat} {frames : List Frame} (h : st.Counts c n)
    (hframes : invocationsOf frames = invocationsOf st.frames) :
    ScriptState.Counts c n ⟨frames, st.count⟩ := by
  rw [ScriptState.Counts, hframes]
  exact h

/-- A step that records sites within the limit. -/
theorem ScriptState.Counts.of_append {n : Nat} {frames : List Frame} (h : st.Counts c n)
    {new : List Invocation} (hframes : invocationsOf frames = new ++ invocationsOf st.frames)
    (hle : st.count + new.length ≤ n) :
    ScriptState.Counts c n ⟨frames, st.count + new.length⟩ := by
  refine ⟨?_, hle⟩
  rw [hframes, List.length_append, Nat.add_left_comm, ← h.1]
  exact Nat.add_comm _ _

/-- Whatever a step does, the sites stay counted and within the limit. -/
theorem ScriptMove.counts {place skip : Nat} {rest : List Char} {ch : Char}
    (hscan : s.scan.Within s.settings.maxSites) (hst : st.Counts c s.settings.maxSites)
    (h : ScriptMove s st place ch rest skip st') : st'.Counts c s.settings.maxSites := by
  cases h with
  | pass => exact hst
  | enter => exact hst.of_eq rfl
  | openBrace => exact hst.of_eq (invocationsOf_openBrace _)
  | closeBrace => exact hst.of_eq (invocationsOf_closeBrace _)
  | close _ hclose =>
    refine hst.of_eq ?_
    rw [invocationsOf_recordSites, invocationsOf_closeElements? hclose]
  | @selfClosing tag _ htag =>
    rw [tag.length_sites]
    refine hst.of_append ?_ (readTag_counts hscan hst.2 htag)
    rw [invocationsOf_recordSites, tag.map_invocation_sites]
  | @openTag tag _ htag =>
    rw [tag.length_sites]
    exact hst.of_append rfl (readTag_counts hscan hst.2 htag)
  | @call site _ hsite =>
    have hframes : invocationsOf (recordSites [site] st.frames) =
        [site.invocation] ++ invocationsOf st.frames := invocationsOf_recordSites _ _
    exact hst.of_append hframes (callSite_counts hsite)

/-- A walk that has counted its sites so far ends within the limit. -/
theorem scriptWalk_counts (hscan : s.scan.Within s.settings.maxSites) {found : List Site}
    (chars : List Char) :
    ∀ (st : ScriptState) (place : Nat) (before : List Char) (skip : Nat),
      st.Counts c s.settings.maxSites → scriptWalk s st place before skip chars = .ok found →
        c + found.length ≤ s.settings.maxSites := by
  induction chars with
  | nil =>
    intro st place before skip hst h
    have hfound : closeAll place st.frames = found := by cases skip <;> exact Except.ok.inj h
    have hlength := congrArg List.length (map_invocation_closeAll place st.frames)
    rw [List.length_map, hfound] at hlength
    rw [hlength, ← hst.1]
    exact hst.2
  | cons d rest ih =>
    intro st place before skip hst h
    cases skip with
    | succ skip => exact ih st _ _ skip hst h
    | zero =>
      rw [scriptWalk] at h
      split at h
      · cases h
      · next hstep => exact ih _ _ _ _ ((scriptStep_move hstep).counts hscan hst) h

end Script

private theorem scanRegion_within {settings : ScanSettings} {scan : InnerScan}
    (hscan : scan.Within settings.maxSites) (jsx : Bool) :
    InnerScan.Within settings.maxSites (scanRegion settings jsx scan) := by
  intro count region found hcount h
  exact scriptWalk_counts (s := ⟨settings, jsx, scan, region.lead⟩) hscan region.chars
    ⟨[.code 0 []], count⟩ _ _ _ ⟨rfl, hcount⟩ h

/-- **Code keeps to the limit on sites**, at every depth. -/
theorem scanScript_within (settings : ScanSettings) :
    ∀ (levels : Nat) (jsx : Bool), (scanScript settings levels jsx).Within settings.maxSites
  | 0, jsx => scanRegion_within InnerScan.within_nothing jsx
  | levels + 1, jsx => scanRegion_within (scanScript_within settings levels true) jsx

/-- The state counts the sites it holds, within the limit. -/
def MarkupState.Counts (n : Nat) (st : MarkupState) : Prop :=
  st.count = st.invocations.length ∧ st.count ≤ n

section Markup

variable {settings : ScanSettings} {script : Bool → InnerScan} {st st' : MarkupState}

/-- New sites are counted. -/
theorem MarkupState.Counts.record {n : Nat} (h : st.Counts n) {sites : List Site}
    (hle : st.count + sites.length ≤ n) : (st.record sites).Counts n := by
  refine ⟨?_, hle⟩
  rw [MarkupState.invocations_record, List.length_append, List.length_map, ← h.1]
  exact Nat.add_comm _ _

/-- Whatever a step does, the sites stay counted and within the limit. -/
theorem MarkupMove.counts {place skip : Nat} {rest : List Char}
    (hscript : ∀ jsx, (script jsx).Within settings.maxSites) (hst : st.Counts settings.maxSites)
    (h : MarkupMove settings script st place rest skip st') : st'.Counts settings.maxSites := by
  have hrecord : ∀ {tag : Tag} (stop : Nat),
      readTag settings .markup (fun _ _ => .ok []) st.count place rest = .ok (some tag) →
        (st.record (tag.sites stop)).Counts settings.maxSites := fun {tag} stop htag =>
    hst.record (tag.length_sites stop ▸ readTag_counts InnerScan.within_nothing hst.2 htag)
  cases h with
  | pass => exact hst
  | @close name skip sites elements _ hclose =>
    have hinvocations : ({ st with elements }.place sites).invocations = st.invocations := by
      rw [MarkupState.invocations_place, MarkupState.invocations, MarkupState.invocations,
        ← List.append_assoc, invocations_closeNamed? hclose]
    rw [MarkupState.Counts, hinvocations, Offset.count_place]
    exact hst
  | void htag => exact hrecord _ htag
  | code htag _ hfound =>
    exact (hrecord place htag).record (hscript _ _ _ _ (hrecord place htag).2 hfound)
  | style htag => exact hrecord _ htag
  | @openTag tag htag =>
    -- The site of the element is counted though its end is open.
    refine ⟨?_, (hrecord tag.stop htag).2⟩
    rw [tag.length_sites, hst.1]
    simp only [MarkupState.invocations, List.flatMap_cons, OpenElement.invocations,
      Tag.invocations, List.length_append]
    omega

private theorem markupWalk_counts (hscript : ∀ jsx, (script jsx).Within settings.maxSites)
    {found : List Site} (chars : List Char) :
    ∀ (st : MarkupState) (place skip : Nat), st.Counts settings.maxSites →
      markupWalk settings script st place skip chars = .ok found →
        found.length ≤ settings.maxSites := by
  induction chars with
  | nil =>
    intro st place skip hst h
    have hfound : st.finish place = found := by cases skip <;> exact Except.ok.inj h
    have hlength := congrArg List.length (st.map_invocation_finish place)
    rw [List.length_map, hfound] at hlength
    rw [hlength, ← hst.1]
    exact hst.2
  | cons d rest ih =>
    intro st place skip hst h
    cases skip with
    | succ skip => exact ih st _ skip hst h
    | zero =>
      rw [markupWalk] at h
      split at h
      · split at h
        · cases h
        · next hstep => exact ih _ _ _ ((markupStep_move hstep).counts hscript hst) h
      · exact ih _ _ _ hst h

end Markup

/-! ### Whole texts -/

/-- **A scan keeps to the limit on sites.** -/
theorem scanText_length_le {options : ExtractOptions} {dialect : Dialect} {text : List Char}
    {found : List Site} (h : scanText options dialect text = .ok found) :
    found.length ≤ options.maxSites := by
  cases dialect with
  | script jsx =>
    have hle := scanScript_within ⟨options.marker.toList, options.maxSites⟩ options.maxDepth jsx 0
      _ _ (Nat.zero_le _) h
    rwa [Nat.zero_add] at hle
  | template =>
    exact markupWalk_counts (scanScript_within ⟨options.marker.toList, options.maxSites⟩
      options.maxDepth) text {} 0 0 ⟨rfl, Nat.zero_le _⟩ h

/-- So do the sites in the order of their places. -/
theorem findSites_length_le {options : ExtractOptions} {dialect : Dialect} {text : List Char}
    {sites : List Site} (h : findSites options dialect text = .ok sites) :
    sites.length ≤ options.maxSites := by
  rw [findSites] at h
  split at h
  · cases h
  split at h
  · cases h
  split at h
  · cases h
    exact Nat.zero_le _
  cases hscan : scanText options dialect text with
  | error e =>
    rw [hscan] at h
    cases h
  | ok found =>
    rw [hscan] at h
    cases h
    rw [List.length_mergeSort, List.length_reverse]
    exact scanText_length_le hscan

/-- **Limits cut off a result and do not change it.** For two runs that differ only in their limits
on bytes and sites: when both have a result it is the same, when the run with the lower limits has
one so does the other, and a result has no more usages than its limit on sites. -/
theorem extract_under_limits (options : ExtractOptions) (b n b' n' : Nat) (path text : String) :
    (∀ usages usages', extract { options with maxBytes := b, maxSites := n } path text =
        .ok usages →
      extract { options with maxBytes := b', maxSites := n' } path text = .ok usages' →
        usages = usages') ∧
    (b ≤ b' → n ≤ n' →
      ∀ usages, extract { options with maxBytes := b, maxSites := n } path text = .ok usages →
        extract { options with maxBytes := b', maxSites := n' } path text = .ok usages) ∧
    ∀ usages, extract { options with maxBytes := b, maxSites := n } path text = .ok usages →
      usages.length ≤ n := by
  refine ⟨fun usages usages' h h' => ?_, fun hbytes hsites => ?_, fun usages h => ?_⟩
  · -- Neither run need have the lower limits: both agree with the run that has the higher of each.
    have hmax := extract_cutsOff options (Nat.le_max_left b b') (Nat.le_max_left n n') path text
      usages h
    have hmax' := extract_cutsOff options (Nat.le_max_right b b') (Nat.le_max_right n n') path text
      usages' h'
    exact Except.ok.inj (hmax.symm.trans hmax')
  · exact extract_cutsOff options hbytes hsites path text
  · obtain ⟨sites, hsites, hsightings⟩ := exists_sites_of_extract h
    have hlength := congrArg List.length hsightings
    rw [List.length_map, List.length_map] at hlength
    rw [hlength]
    exact findSites_length_le hsites

/-- The tag comes to no end and is read again as code, so the scan records the site twice; one site
is left, for which a limit of one is enough. -/
theorem extract_under_limits_of_one :
    let text := "<div a=\x7b<va-link/>\x7d ]"
    scanText { maxSites := 0 } (.script true) text.toList = .error (.tooManySites 0) ∧
      ∃ usages, extract { maxBytes := 21, maxSites := 1 } "a.jsx" text = .ok usages ∧
        extract { maxBytes := 2000, maxSites := 9 } "a.jsx" text = .ok usages ∧
        usages.length ≤ 1 := by
  have hscan : scanText { maxBytes := 21, maxSites := 1 } (.script true)
      "<div a=\x7b<va-link/>\x7d ]".toList = .ok [⟨"va-link", "va-link", 8, 18, {}, false⟩] := by
    decide +kernel
  have hdialect : Dialect.ofPath ⟨"a.jsx"⟩ = .script true := by decide +kernel
  have hextract : extract { maxBytes := 21, maxSites := 1 } "a.jsx" "<div a=\x7b<va-link/>\x7d ]" =
      .ok (usagesOf "<div a=\x7b<va-link/>\x7d ]".toList "a.jsx"
        [⟨"va-link", "va-link", 8, 18, {}, false⟩]) := by
    rw [extract, hdialect, findSites_eq_reverse (by decide +kernel) (by decide +kernel) hscan]
    rfl
  obtain ⟨-, hmore, hlength⟩ := extract_under_limits {} 21 1 2000 9 "a.jsx"
    "<div a=\x7b<va-link/>\x7d ]"
  exact ⟨by decide +kernel, _, hextract, hmore (by decide) (by decide) _ hextract,
    hlength _ hextract⟩

end ComponentAudit
