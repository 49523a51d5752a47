import ComponentAudit.Extraction
import ComponentAudit.Proofs.Limit.Count

/-!
# Sites cost time

A scan looks at the clock before it records a site, and looks are not taken back when a tag comes to
no end and its sites are dropped. So a scan has looked at least once for every site that it finds.
The proof goes with the scan: what it has spent only grows (`InnerEffort.Grows`), and the number of
sites recorded so far grows no faster than the number of looks (`InnerEffort.Pays`).

The main statement is `runsOut_of_late`: a file with usages is not scanned in time by a clock that
is late from the start.
-/

namespace ComponentAudit

/-- What the scan of an inner region spends comes on top of what was spent before it. -/
def InnerEffort.Grows (inner : InnerEffort) : Prop :=
  ∀ (count : Nat) (region : Region) (e : Effort), e.looks ≤ (inner count region e).looks

/-- The scan looks at the clock for every site that it finds, as long as there are no more than `n`
sites before it. -/
def InnerEffort.Pays (n : Nat) (scan : InnerScan) (inner : InnerEffort) : Prop :=
  ∀ (count : Nat) (region : Region) (found : List Site) (e : Effort), count ≤ n →
    scan count region = .ok found → e.looks + found.length ≤ (inner count region e).looks

private theorem InnerEffort.grows_nothing : InnerEffort.Grows fun _ _ e => e :=
  fun _ _ _ => Nat.le_refl _

private theorem InnerEffort.pays_nothing {n : Nat} :
    InnerEffort.Pays n (fun _ _ => .ok []) fun _ _ e => e := by
  intro count region found e _ h
  cases h
  exact Nat.le_refl _

section Readers

variable {settings : ScanSettings} {flavor : Flavor} {scan : InnerScan} {inner : InnerEffort}
  {n c : Nat}

/-! ### Calls -/

private theorem callEffort_grows (count start : Nat) (text : List Char) (e : Effort) :
    e.looks ≤ (callEffort settings count start text e).looks := by
  unfold callEffort
  split
  · split
    · simp
    · split
      · simp
      · split
        · simp
        · simp only [Effort.looks_lookIf, Effort.looks_look]
          omega
  · exact Nat.le_refl _

/-- The search for the closing parenthesis alone pays for a call. -/
theorem callEffort_pays {count start place : Nat} {text : List Char} {site : Site}
    (h : callSite settings count start place text = .ok (some site)) (e : Effort) :
    e.looks + 1 ≤ (callEffort settings count start text e).looks := by
  rw [callSite] at h
  split at h
  · next s hparen =>
    simp only [callEffort, hparen]
    split
    · simp
    · split
      · simp
      · split
        · simp
        · simp only [Effort.looks_lookIf, Effort.looks_look]
          omega
  · cases h

/-! ### Start tags -/

private theorem attributeEffort_grows (hinner : inner.Grows) (count place : Nat) (a : Attribute)
    (e : Effort) : e.looks ≤ (attributeEffort flavor inner count place a e).looks := by
  unfold attributeEffort
  split
  · exact hinner _ _ e
  · exact Nat.le_refl _

/-- The scan of the value pays for the sites in it. -/
theorem attributeEffort_pays (hinner : inner.Pays n scan) {st st' : TagState} {place : Nat}
    {a : Attribute} (hle : st.count ≤ n) (h : st.addAttribute flavor scan place a = .ok st')
    (e : Effort) :
    st'.count + e.looks ≤ st.count + (attributeEffort flavor inner st.count place a e).looks := by
  obtain ⟨found, hfound, hcount, -⟩ := TagState.exists_of_addAttribute h
  rw [hcount]
  unfold Offset.valueSites at hfound
  split at hfound
  · next hvalue =>
    have hpays := hinner _ _ found e hle hfound
    unfold attributeEffort
    rw [hvalue]
    dsimp only
    omega
  · next hvalue =>
    cases hfound
    unfold attributeEffort
    split
    · next hexpr => exact absurd hexpr (hvalue _ rfl)
    · simp

private theorem tagWalkEffort_grows (hinner : inner.Grows) (chars : List Char) :
    ∀ (st : TagState) (place skip : Nat) (e : Effort),
      e.looks ≤ (tagWalkEffort flavor scan inner st place skip chars e).looks := by
  induction chars with
  | nil => intro st place skip e; cases skip <;> exact Nat.le_refl _
  | cons d rest ih =>
    intro st place skip e
    cases skip with
    | succ skip => exact ih st (place + 1) skip e
    | zero =>
      rw [tagWalkEffort]
      split
      · exact ih st (place + 1) 0 e
      have hturn : e.looks ≤ ((e.turn 1).lookIf (opensExpression d rest)).looks := by simp
      dsimp only
      split
      · exact hturn
      · exact hturn
      · exact Nat.le_trans hturn (ih _ _ _ _)
      · exact Nat.le_trans hturn (ih _ _ _ _)
      · next a _ =>
        have hvalue : e.looks ≤ (attributeEffort flavor inner st.count place a
            ((e.turn 1).lookIf (opensExpression d rest))).looks :=
          Nat.le_trans hturn (attributeEffort_grows hinner _ _ _ _)
        split
        · exact hvalue
        · exact Nat.le_trans hvalue (ih _ _ _ _)

/-- The attributes of a tag pay for the sites in them. -/
theorem tagWalkEffort_pays (hinner : inner.Pays n scan) (hscan : scan.Within n)
    {name : List Char} {tag : Tag} (chars : List Char) :
    ∀ (st : TagState) (place skip : Nat) (e : Effort), st.Counts c n →
      tagWalk flavor scan name st place skip chars = .ok (some tag) →
        c + tag.invocations.length + e.looks ≤
          st.count + (tagWalkEffort flavor scan inner st place skip chars e).looks := by
  -- Blanks are no turn of the loop, which passes over them first.
  induction chars with
  | nil => intro st place skip e _ h; cases skip <;> cases h
  | cons d rest ih =>
    intro st place skip e hst h
    cases skip with
    | succ skip => exact ih st (place + 1) skip e hst h
    | zero =>
      rw [tagWalk] at h
      by_cases hspace : Text.isSpace d = true
      · rw [tagWalkEffort, if_pos hspace]
        rw [tagPart, if_pos hspace] at h
        exact ih st (place + 1) 0 e hst h
      have hturn : e.looks ≤ ((e.turn 1).lookIf (opensExpression d rest)).looks := by simp
      split at h
      · next hpart =>
        cases h
        rw [tagWalkEffort, if_neg hspace, hpart]
        exact Nat.add_le_add (Nat.le_of_eq hst.1.symm) hturn
      · cases h
      · next hpart =>
        rw [tagWalkEffort, if_neg hspace, hpart]
        exact Nat.le_trans (Nat.add_le_add_left hturn _) (ih _ _ _ _ hst h)
      · next hpart =>
        rw [tagWalkEffort, if_neg hspace, hpart]
        exact Nat.le_trans (Nat.add_le_add_left hturn _) (ih _ _ _ _ (hst.of_site_map _) h)
      · next a hpart =>
        split at h
        · cases h
        · next st' hadd =>
          have hpays := attributeEffort_pays hinner hst.2 hadd
            ((e.turn 1).lookIf (opensExpression d rest))
          have hrest := ih _ _ _ (attributeEffort flavor inner st.count place a
            ((e.turn 1).lookIf (opensExpression d rest))) (hst.addAttribute hscan hadd) h
          rw [tagWalkEffort, if_neg hspace, hpart]
          dsimp only
          rw [hadd]
          dsimp only
          omega

private theorem readTagEffort_grows (hinner : inner.Grows) (count start : Nat) (s : List Char)
    (e : Effort) : e.looks ≤ (readTagEffort settings flavor scan inner count start s e).looks := by
  unfold readTagEffort
  split
  · exact Nat.le_refl _
  split
  · exact Nat.le_refl _
  split
  · exact Nat.le_refl _
  dsimp only
  split
  · exact Nat.le_refl _
  split
  · exact Nat.le_refl _
  · next site _ =>
    have hsite : e.looks ≤ (e.lookIf site.isSome).looks := by simp
    exact Nat.le_trans hsite (tagWalkEffort_grows hinner _ _ _ _ _)

/-- **A start tag** pays for its own site and for those in its attributes. -/
theorem readTagEffort_pays (hinner : inner.Pays settings.maxSites scan)
    (hscan : scan.Within settings.maxSites) {count start : Nat}
    (hcount : count ≤ settings.maxSites) {s : List Char} {tag : Tag}
    (h : readTag settings flavor scan count start s = .ok (some tag)) (e : Effort) :
    tag.invocations.length + e.looks ≤
      (readTagEffort settings flavor scan inner count start s e).looks := by
  cases s with
  | nil => cases h
  | cons d s =>
    rw [readTag] at h
    split at h
    · next hfragment =>
      cases h
      rw [readTagEffort, if_pos hfragment]
      simp [Tag.invocations]
    next hfragment =>
    split at h
    · cases h
    next halpha =>
    dsimp only at h
    split at h
    · cases h
    next hends =>
    split at h
    · cases h
    next site hsite =>
    rw [readTagEffort, if_neg hfragment, if_neg halpha]
    dsimp only
    rw [if_neg hends, hsite]
    dsimp only
    have hwalk := tagWalkEffort_pays hinner hscan _ _ _ _ (e.lookIf site.isSome)
      (TagState.counts_of_tagSite hcount hsite) h
    -- The site of the tag is recorded before its attributes are read.
    have hown : (e.lookIf site.isSome).looks = e.looks + site.toList.length := by
      cases site <;> simp
    dsimp only at hwalk
    omega

end Readers

/-! ### Script code -/

section Script

variable {s : ScriptScan} {inner : InnerEffort} {st st' : ScriptState} {place skip : Nat}
  {before rest : List Char} {d : Char}

private theorem identEffort_grows (e : Effort) :
    e.looks ≤ (identEffort s st place before d rest e).looks := by
  unfold identEffort
  dsimp only
  split
  · exact Nat.le_refl _
  · exact callEffort_grows _ _ _ _

private theorem scriptStepEffort_grows (hinner : inner.Grows) (e : Effort) :
    e.looks ≤ (scriptStepEffort s inner st place before d rest e).looks := by
  unfold scriptStepEffort
  split
  · unfold childrenEffort
    dsimp only
    split
    · exact readTagEffort_grows hinner _ _ _ (e.turn _)
    · exact Nat.le_refl _
  · unfold scriptCodeEffort
    dsimp only
    split
    · exact Nat.le_refl _
    split
    · simp
    split
    · exact readTagEffort_grows hinner _ _ _ (e.turn 1)
    split
    · exact identEffort_grows (e.turn 1)
    · exact Nat.le_refl _

private theorem count_closeStep (h : closeStep st place rest = (skip, st')) :
    st'.count = st.count := by
  simp only [closeStep] at h
  split at h
  · split at h <;> cases h <;> rfl
  · cases h
    rfl

/-- The step at a `<` looks at the clock for the sites that it records. -/
theorem openStep_pays (hgrows : inner.Grows) (hinner : inner.Pays s.settings.maxSites s.scan)
    (hscan : s.scan.Within s.settings.maxSites) (hcount : st.count ≤ s.settings.maxSites)
    (h : openStep s st place rest = .ok (skip, st')) (e : Effort) :
    st'.count + e.looks ≤ st.count +
      (readTagEffort s.settings .jsx s.scan inner st.count place rest e).looks := by
  rw [openStep] at h
  split at h
  · cases h
  · cases h
    exact Nat.add_le_add_left (readTagEffort_grows hgrows _ _ _ _) _
  · next tag htag =>
    cases h
    have hpays := readTagEffort_pays hinner hscan hcount htag e
    rw [← tag.length_sites tag.stop] at hpays
    dsimp only
    omega

/-- The step at an identifier pays for the site of a call. -/
theorem identStep_pays (h : identStep s st place before d rest = .ok (skip, st')) (e : Effort) :
    st'.count + e.looks ≤ st.count + (identEffort s st place before d rest e).looks := by
  rw [identStep] at h
  unfold identEffort
  dsimp only at h ⊢
  split at h
  · next hother =>
    cases h
    exact Nat.le_of_eq (by rw [if_pos hother])
  next hother =>
  rw [if_neg hother]
  split at h
  · cases h
  · cases h
    exact Nat.add_le_add_left (callEffort_grows _ _ _ _) _
  · next site hsite =>
    cases h
    have hpays := callEffort_pays hsite e
    dsimp only
    omega

/-- Every step through code pays for the sites that it records. -/
theorem scriptStep_pays (hgrows : inner.Grows) (hinner : inner.Pays s.settings.maxSites s.scan)
    (hscan : s.scan.Within s.settings.maxSites) (hcount : st.count ≤ s.settings.maxSites)
    (h : scriptStep s st place before d rest = .ok (skip, st')) (e : Effort) :
    st'.count + e.looks ≤
      st.count + (scriptStepEffort s inner st place before d rest e).looks := by
  -- Most steps record no site, and pay for none.
  have hfree : st'.count = st.count → st'.count + e.looks ≤
      st.count + (scriptStepEffort s inner st place before d rest e).looks := fun hsame =>
    hsame ▸ Nat.add_le_add_left (scriptStepEffort_grows hgrows e) _
  rw [scriptStep] at h
  split at h
  · next hframes =>
    rw [childrenStep] at h
    split at h
    · cases h
      exact hfree rfl
    split at h
    · next hc =>
      split at h
      · exact hfree (count_closeStep (Except.ok.inj h))
      · next hhead =>
        have hpays := openStep_pays hgrows hinner hscan hcount h (e.turn d.utf8Size)
        simpa only [scriptStepEffort, hframes, childrenEffort, hc, hhead, ne_eq, not_false_eq_true,
          decide_true, Bool.and_self, if_true, Effort.looks_turn] using hpays
    · cases h
      exact hfree rfl
  · next hframes =>
    rw [scriptCodeStep] at h
    split at h
    · cases h
      exact hfree rfl
    next htoken =>
    split at h
    · cases h
      exact hfree rfl
    split at h
    · split at h <;> cases h <;> exact hfree rfl
    next hquote =>
    split at h
    · cases h
      exact hfree rfl
    split at h
    · cases h
      exact hfree rfl
    split at h
    · next hopen =>
      have hpays := openStep_pays hgrows hinner hscan hcount h (e.turn 1)
      simpa only [scriptStepEffort, hframes, scriptCodeEffort, htoken, if_neg hquote,
        if_pos hopen, Effort.looks_turn] using hpays
    next hopen =>
    split at h
    · next hc =>
      have hpays := identStep_pays h (e.turn 1)
      simpa only [scriptStepEffort, hframes, scriptCodeEffort, htoken, if_neg hquote,
        if_neg hopen, if_pos hc, Effort.looks_turn] using hpays
    · cases h
      exact hfree rfl

private theorem scriptWalkEffort_grows (hinner : inner.Grows) (chars : List Char) :
    ∀ (st : ScriptState) (place : Nat) (before : List Char) (skip : Nat) (e : Effort),
      e.looks ≤ (scriptWalkEffort s inner st place before skip chars e).looks := by
  induction chars with
  | nil => intro st place before skip e; cases skip <;> exact Nat.le_refl _
  | cons d rest ih =>
    intro st place before skip e
    cases skip with
    | succ skip => exact ih st _ _ skip e
    | zero =>
      rw [scriptWalkEffort]
      have hstep : e.looks ≤ (scriptStepEffort s inner st place before d rest e).looks :=
        scriptStepEffort_grows hinner e
      split
      · exact hstep
      · exact Nat.le_trans hstep (ih _ _ _ _ _)

/-- **A walk through code** pays for the sites that it adds to those before it. -/
theorem scriptWalkEffort_pays (hgrows : inner.Grows)
    (hinner : inner.Pays s.settings.maxSites s.scan) (hscan : s.scan.Within s.settings.maxSites)
    {c : Nat} {found : List Site} (chars : List Char) :
    ∀ (st : ScriptState) (place : Nat) (before : List Char) (skip : Nat) (e : Effort),
      st.Counts c s.settings.maxSites → scriptWalk s st place before skip chars = .ok found →
        c + found.length + e.looks ≤
          st.count + (scriptWalkEffort s inner st place before skip chars e).looks := by
  induction chars with
  | nil =>
    intro st place before skip e hst h
    have hfound : closeAll place st.frames = found := by cases skip <;> exact Except.ok.inj h
    have hlength := congrArg List.length (map_invocation_closeAll place st.frames)
    rw [List.length_map, hfound] at hlength
    have heffort : scriptWalkEffort s inner st place before skip [] e = e := by cases skip <;> rfl
    exact Nat.le_of_eq (by rw [hlength, ← hst.1, heffort])
  | cons d rest ih =>
    intro st place before skip e hst h
    cases skip with
    | succ skip => exact ih st _ _ skip e hst h
    | zero =>
      rw [scriptWalk] at h
      split at h
      · cases h
      · next hstep =>
        have hpays := scriptStep_pays hgrows hinner hscan hst.2 hstep e
        have hrest := ih _ _ _ _ (scriptStepEffort s inner st place before d rest e)
          ((scriptStep_move hstep).counts hscan hst) h
        rw [scriptWalkEffort, hstep]
        dsimp only
        omega

end Script

private theorem scanRegionEffort_grows {settings : ScanSettings} {jsx : Bool} {scan : InnerScan}
    {inner : InnerEffort} (hinner : inner.Grows) :
    InnerEffort.Grows (scanRegionEffort settings jsx scan inner) :=
  fun _ region e => scriptWalkEffort_grows hinner region.chars _ _ _ _ e

private theorem scanRegionEffort_pays {settings : ScanSettings} {jsx : Bool} {scan : InnerScan}
    {inner : InnerEffort} (hgrows : inner.Grows) (hinner : inner.Pays settings.maxSites scan)
    (hscan : scan.Within settings.maxSites) :
    InnerEffort.Pays settings.maxSites (scanRegion settings jsx scan)
      (scanRegionEffort settings jsx scan inner) := by
  intro count region found e hcount h
  have hpays := scriptWalkEffort_pays (s := ⟨settings, jsx, scan, region.lead⟩) hgrows hinner hscan
    region.chars ⟨[.code 0 []], count⟩ _ _ _ e ⟨rfl, hcount⟩ h
  rw [scanRegionEffort]
  dsimp only at hpays
  omega

/-- At every depth, what a scan of code spends comes on top. -/
theorem scanScriptEffort_grows (settings : ScanSettings) :
    ∀ (levels : Nat) (jsx : Bool), (scanScriptEffort settings levels jsx).Grows
  | 0, _ => scanRegionEffort_grows InnerEffort.grows_nothing
  | levels + 1, _ => scanRegionEffort_grows (scanScriptEffort_grows settings levels true)

/-- At every depth, a scan of code pays for its sites. -/
theorem scanScriptEffort_pays (settings : ScanSettings) :
    ∀ (levels : Nat) (jsx : Bool), (scanScriptEffort settings levels jsx).Pays settings.maxSites
      (scanScript settings levels jsx)
  | 0, _ =>
    scanRegionEffort_pays InnerEffort.grows_nothing InnerEffort.pays_nothing
      InnerScan.within_nothing
  | levels + 1, _ =>
    scanRegionEffort_pays (scanScriptEffort_grows settings levels true)
      (scanScriptEffort_pays settings levels true) (scanScript_within settings levels true)

/-! ### Template markup -/

section Markup

variable {settings : ScanSettings} {scan : Bool → InnerScan} {script : Bool → InnerEffort}
  {st st' : MarkupState} {place skip : Nat} {rest : List Char}

/-- The scan of markup with nothing in its attributes to scan. -/
theorem readTagEffort_markup_pays (hcount : st.count ≤ settings.maxSites) {tag : Tag}
    (h : readTag settings .markup (fun _ _ => .ok []) st.count place rest = .ok (some tag))
    (e : Effort) :
    tag.invocations.length + e.looks ≤
      (readTagEffort settings .markup (fun _ _ => .ok []) (fun _ _ e => e) st.count place rest
        e).looks :=
  readTagEffort_pays InnerEffort.pays_nothing InnerScan.within_nothing hcount h e

private theorem tagStepEffort_grows (hscript : ∀ jsx, (script jsx).Grows) (text : List Char)
    (tag : Tag) (e : Effort) : e.looks ≤ (tagStepEffort script st place text tag e).looks := by
  unfold tagStepEffort
  dsimp only
  split
  · exact Nat.le_refl _
  split
  · exact hscript _ _ _ e
  · exact Nat.le_refl _

/-- The sites of the tag itself are paid for when it is read. -/
theorem tagStep_pays (hgrows : ∀ jsx, (script jsx).Grows)
    (hscript : ∀ jsx, (script jsx).Pays settings.maxSites (scan jsx)) {text : List Char} {tag : Tag}
    (hcount : st.count + tag.invocations.length ≤ settings.maxSites)
    (h : tagStep scan st place text tag = .ok (skip, st')) (e : Effort) :
    st'.count + e.looks ≤ st.count + tag.invocations.length +
      (tagStepEffort script st place text tag e).looks := by
  -- Everything but the body of a `script` element records the sites of the tag only.
  have hown : ∀ stop, st'.count = st.count + (tag.sites stop).length →
      st'.count + e.looks ≤ st.count + tag.invocations.length +
        (tagStepEffort script st place text tag e).looks := by
    intro stop hsame
    rw [hsame, tag.length_sites]
    exact Nat.add_le_add_left (tagStepEffort_grows hgrows text tag e) _
  rw [tagStep] at h
  dsimp only at h
  split at h
  · cases h
    exact hown _ rfl
  next hvoid =>
  split at h
  · next hname =>
    split at h
    · cases h
    next found hfound =>
    cases h
    have hrecord : (st.record (tag.sites place)).count = st.count + tag.invocations.length :=
      congrArg (st.count + ·) (tag.length_sites place)
    have hpays := hscript _ _ _ found e (hrecord ▸ hcount) hfound
    have hfinal : ((st.record (tag.sites place)).record found).count =
        st.count + tag.invocations.length + found.length := hrecord ▸ rfl
    rw [tagStepEffort, if_neg hvoid, if_pos hname, hfinal]
    omega
  split at h
  · cases h
    exact hown _ rfl
  · cases h
    exact hown _ rfl

private theorem count_closingStep (h : closingStep st place rest = (skip, st')) :
    st'.count = st.count := by
  simp only [closingStep] at h
  split at h
  · cases h
    exact Offset.count_place _ _
  · cases h
    rfl

private theorem markupStepEffort_grows (hscript : ∀ jsx, (script jsx).Grows) (e : Effort) :
    e.looks ≤ (markupStepEffort settings script st place rest e).looks := by
  have hread : e.looks ≤ (readTagEffort settings .markup (fun _ _ => .ok []) (fun _ _ e => e)
      st.count place rest e).looks := readTagEffort_grows InnerEffort.grows_nothing _ _ _ e
  unfold markupStepEffort
  split
  · exact Nat.le_refl _
  · exact Nat.le_refl _
  · exact Nat.le_refl _
  · split
    · exact Nat.le_trans hread (tagStepEffort_grows hscript _ _ _)
    · exact hread

/-- Every step through markup pays for the sites that it records. -/
theorem markupStep_pays (hgrows : ∀ jsx, (script jsx).Grows)
    (hscript : ∀ jsx, (script jsx).Pays settings.maxSites (scan jsx))
    (hcount : st.count ≤ settings.maxSites)
    (h : markupStep settings scan st place rest = .ok (skip, st')) (e : Effort) :
    st'.count + e.looks ≤ st.count + (markupStepEffort settings script st place rest e).looks := by
  -- A step that records nothing has nothing to pay for.
  have hfree : st'.count = st.count → st'.count + e.looks ≤
      st.count + (markupStepEffort settings script st place rest e).looks := fun hsame =>
    hsame ▸ Nat.add_le_add_left (markupStepEffort_grows hgrows e) _
  unfold markupStep at h
  split at h
  · split at h <;> cases h <;> exact hfree rfl
  · exact hfree (count_closingStep (Except.ok.inj h))
  · cases h
    exact hfree rfl
  · cases h
    exact hfree rfl
  · next hdash hslash hbang hquery =>
    split at h
    · cases h
    · cases h
      exact hfree rfl
    · next tag htag =>
      have hread := readTagEffort_markup_pays hcount htag e
      have hstep := tagStep_pays hgrows hscript
        (readTag_counts InnerScan.within_nothing hcount htag) h
        (readTagEffort settings .markup (fun _ _ => .ok []) (fun _ _ e => e) st.count place rest e)
      unfold markupStepEffort
      split
      · exact absurd rfl (hbang _)
      · exact absurd rfl (hslash _)
      · exact absurd rfl (hquery _)
      · rw [htag]
        dsimp only
        omega

private theorem markupWalkEffort_grows (hscript : ∀ jsx, (script jsx).Grows) (chars : List Char) :
    ∀ (st : MarkupState) (place skip : Nat) (e : Effort),
      e.looks ≤ (markupWalkEffort settings scan script st place skip chars e).looks := by
  induction chars with
  | nil => intro st place skip e; cases skip <;> exact Nat.le_refl _
  | cons d rest ih =>
    intro st place skip e
    cases skip with
    | succ skip => exact ih st (place + 1) skip e
    | zero =>
      rw [markupWalkEffort]
      split
      · have hstep : e.looks ≤ (markupStepEffort settings script st place rest (e.turn 1)).looks :=
          markupStepEffort_grows hscript (e.turn 1)
        dsimp only
        split
        · exact hstep
        · exact Nat.le_trans hstep (ih _ _ _ _)
      · refine Nat.le_trans (Nat.le_of_eq ?_) (ih _ _ _ _)
        split <;> rfl

/-- **A walk through markup** pays for its sites. -/
theorem markupWalkEffort_pays (hgrows : ∀ jsx, (script jsx).Grows)
    (hpays : ∀ jsx, (script jsx).Pays settings.maxSites (scan jsx))
    (hscan : ∀ jsx, (scan jsx).Within settings.maxSites) {found : List Site} (chars : List Char) :
    ∀ (st : MarkupState) (place skip : Nat) (e : Effort), st.Counts settings.maxSites →
      markupWalk settings scan st place skip chars = .ok found →
        found.length + e.looks ≤
          st.count + (markupWalkEffort settings scan script st place skip chars e).looks := by
  induction chars with
  | nil =>
    intro st place skip e hst h
    have hfound : st.finish place = found := by cases skip <;> exact Except.ok.inj h
    have hlength := congrArg List.length (st.map_invocation_finish place)
    rw [List.length_map, hfound] at hlength
    have heffort : (markupWalkEffort settings scan script st place skip [] e).looks = e.looks := by
      cases skip <;> rfl
    exact Nat.le_of_eq (by rw [hlength, ← hst.1, heffort])
  | cons d rest ih =>
    intro st place skip e hst h
    cases skip with
    | succ skip => exact ih st _ skip e hst h
    | zero =>
      rw [markupWalk] at h
      split at h
      · next hlt =>
        split at h
        · cases h
        · next hstep =>
          have hnow := markupStep_pays hgrows hpays hst.2 hstep (e.turn 1)
          have hrest := ih _ _ _ (markupStepEffort settings script st place rest (e.turn 1))
            ((markupStep_move hstep).counts hscan hst) h
          rw [Effort.looks_turn] at hnow
          rw [markupWalkEffort, if_pos hlt, hstep]
          dsimp only
          omega
      · next hlt =>
        rw [markupWalkEffort, if_neg hlt]
        refine Nat.le_trans (Nat.le_of_eq ?_) (ih _ _ _ _ hst h)
        split <;> rfl

end Markup

/-! ### Whole texts -/

variable {options : ExtractOptions}

/-- A scan has looked at the clock at least once for every site that it finds. -/
theorem length_le_allLooks {dialect : Dialect} {text : List Char} {found : List Site}
    (h : scanText options dialect text = .ok found) :
    found.length ≤ (scanTextEffort options dialect text).allLooks := by
  refine Nat.le_trans ?_ (Nat.le_add_right _ _)
  cases dialect with
  | script jsx =>
    have hpays := scanScriptEffort_pays ⟨options.marker.toList, options.maxSites⟩ options.maxDepth
      jsx 0 _ _ {} (Nat.zero_le _) h
    rwa [Nat.zero_add] at hpays
  | template =>
    have hpays := markupWalkEffort_pays
      (scanScriptEffort_grows ⟨options.marker.toList, options.maxSites⟩ options.maxDepth)
      (scanScriptEffort_pays _ options.maxDepth) (scanScript_within _ options.maxDepth) text
      {} 0 0 {} ⟨rfl, Nat.zero_le _⟩ h
    rwa [Nat.zero_add] at hpays

/-- An extraction looks at the clock at least as often as it finds a site. -/
theorem findSites_length_le_looks {dialect : Dialect} {text : List Char} {sites : List Site}
    (h : findSites options dialect text = .ok sites) :
    sites.length ≤ looks options dialect text := by
  rw [findSites] at h
  split at h
  · cases h
  next hbytes =>
  split at h
  · cases h
  next hnul =>
  split at h
  · cases h
    exact Nat.zero_le _
  next hmention =>
  cases hscan : scanText options dialect text with
  | error e =>
    rw [hscan] at h
    cases h
  | ok found =>
    rw [hscan] at h
    cases h
    rw [List.length_mergeSort, List.length_reverse, looks, if_neg (by simp_all)]
    exact length_le_allLooks hscan

/-- **The limit on time holds.** A file with usages is not scanned in time by a clock that is late
from the start. -/
theorem runsOut_of_late {clock : Clock} {path text : String} {usages : List Usage}
    (hlimit : options.maxMillis ≠ 0) (h : extract options path text = .ok usages)
    (husages : usages ≠ []) (hlate : clock 0 = true) : runsOut options clock path text = true := by
  obtain ⟨sites, hsites, hsightings⟩ := exists_sites_of_extract h
  have hlength := congrArg List.length hsightings
  rw [List.length_map, List.length_map] at hlength
  have hlooks := findSites_length_le_looks hsites
  have hpos := List.length_pos_iff.2 husages
  rw [runsOut, Bool.and_eq_true, decide_eq_true_eq]
  exact ⟨hlimit, List.any_eq_true.2 ⟨0, List.mem_range.2 (by omega), hlate⟩⟩

end ComponentAudit
