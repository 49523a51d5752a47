import ComponentAudit.Extraction
import ComponentAudit.Proofs.Offset.Tag

/-!
# Results cut off by a limit

The limits on bytes and sites only decide whether there is a result. Of two scans that differ in the
limit on sites, the one with the lower limit gives the result of the other or stops with an error,
which is the relation `CutsOff`. The scans run in step: a site is refused by the limit or is the
same in both, so each reader and each step is compared with itself (`readTag_cutsOff`,
`scriptStep_cutsOff`, `markupStep_cutsOff`).

What a limit leaves is the difference to the number of sites recorded so far. So the comparison is
made between a scan that is `d` sites ahead and one that is not (`Roomier`); this also says that a
region is scanned to the same result when fewer sites have been recorded before it.
-/

namespace ComponentAudit

/-! ### Cut off results -/

/-- The first outcome is an error, or else it is the second one. -/
def CutsOff {α : Type} (x y : Except ExtractError α) : Prop := ∀ r, x = .ok r → y = .ok r

section CutsOff

variable {α β : Type} {x y : Except ExtractError α}

theorem CutsOff.refl (x : Except ExtractError α) : CutsOff x x := fun _ h => h

theorem CutsOff.map (h : CutsOff x y) (f : α → β) : CutsOff (x.map f) (y.map f) := by
  intro r hr
  cases x with
  | error e => cases hr
  | ok a => rw [h a rfl]; exact hr

/-- What is cut off is an error, or it comes from a result of the other outcome. -/
theorem CutsOff.exists_of_map {y : Except ExtractError β} {f : β → α} (h : CutsOff x (y.map f))
    {r : α} (hr : x = .ok r) : ∃ b, y = .ok b ∧ f b = r := by
  have hy := h r hr
  cases y with
  | error e => cases hy
  | ok b => exact ⟨b, rfl, Except.ok.inj hy⟩

end CutsOff

/-- The second settings leave room for as many sites as the first do when `d` sites more have been
recorded, and differ in nothing else. -/
structure Roomier (settings settings' : ScanSettings) (d : Nat) : Prop where
  marker : settings'.marker = settings.marker
  maxSites : settings.maxSites ≤ settings'.maxSites + d

/-- The first scan, `d` sites ahead, is the second one cut off. -/
def InnerScan.CutsOff (d : Nat) (scan scan' : InnerScan) : Prop :=
  ∀ (count : Nat) (region : Region),
    ComponentAudit.CutsOff (scan (count + d) region) (scan' count region)

theorem InnerScan.cutsOff_nothing {d : Nat} :
    InnerScan.CutsOff d (fun _ _ => .ok []) fun _ _ => .ok [] :=
  fun _ _ => .refl _

/-! ### Tags and calls -/

section Readers

variable {settings settings' : ScanSettings} {d : Nat} {flavor : Flavor} {scan scan' : InnerScan}

private theorem newSite_cutsOff (hroom : Roomier settings settings' d) (count : Nat)
    (tag name : List Char) (start : Nat) :
    CutsOff (newSite settings (count + d) tag name start)
      (newSite settings' count tag name start) := by
  intro site h
  have hmax := hroom.maxSites
  rw [newSite] at h ⊢
  split at h
  · cases h
  · rwa [if_neg (by omega)]

/-- The site of a tag is recorded under the higher limit if it is under the lower one. -/
theorem tagSite_cutsOff (hroom : Roomier settings settings' d) (count : Nat) (name : List Char)
    (start : Nat) :
    CutsOff (tagSite settings (count + d) name start) (tagSite settings' count name start) := by
  rw [tagSite, tagSite, hroom.marker]
  split
  · exact .refl _
  · exact (newSite_cutsOff hroom count name _ start).map some

/-- The state of a tag with `d` more sites recorded before it. -/
def TagState.ahead (d : Nat) (st : TagState) : TagState := { st with count := st.count + d }

private theorem valueSites_cutsOff (hscan : scan.CutsOff d scan') (count place : Nat)
    (a : Attribute) :
    CutsOff (Offset.valueSites scan flavor (count + d) place a)
      (Offset.valueSites scan' flavor count place a) := by
  unfold Offset.valueSites
  split
  · exact hscan _ _
  · exact .refl _

private theorem TagState.addAttribute_cutsOff (hscan : scan.CutsOff d scan') (st : TagState)
    (place : Nat) (a : Attribute) :
    CutsOff ((st.ahead d).addAttribute flavor scan place a)
      ((st.addAttribute flavor scan' place a).map (·.ahead d)) := by
  intro st' h
  rw [Offset.addAttribute_eq] at h ⊢
  split at h
  · cases h
  next found hfound =>
  rw [valueSites_cutsOff hscan _ _ _ _ hfound]
  simp only [TagState.ahead] at h
  split at h
  · cases h
    simp only [Except.map, TagState.ahead, Nat.add_right_comm]
  · split at h
    · cases h
    · cases h
      simp only [Except.map, TagState.ahead, Nat.add_right_comm]

private theorem tagWalk_cutsOff (hscan : scan.CutsOff d scan') {name : List Char}
    (chars : List Char) :
    ∀ (st : TagState) (place skip : Nat),
      CutsOff (tagWalk flavor scan name (st.ahead d) place skip chars)
        (tagWalk flavor scan' name st place skip chars) := by
  induction chars with
  | nil => intro st place skip; cases skip <;> exact .refl _
  | cons c rest ih =>
    intro st place skip
    cases skip with
    | succ skip => exact ih st (place + 1) skip
    | zero =>
      rw [tagWalk, tagWalk]
      split
      · exact .refl _
      · exact .refl _
      · exact ih st (place + 1) _
      · exact ih { st with site := st.site.map fun s => { s with spread := true } } (place + 1) _
      · next a _ =>
        intro tag h
        split at h
        · cases h
        next hadd =>
        obtain ⟨st', hadd', rfl⟩ := (st.addAttribute_cutsOff hscan place a).exists_of_map hadd
        rw [hadd']
        exact ih st' (place + 1) _ tag h

/-- A start tag is read as with less room, if that allows it. -/
theorem readTag_cutsOff (hroom : Roomier settings settings' d) (hscan : scan.CutsOff d scan')
    (count start : Nat) (s : List Char) :
    CutsOff (readTag settings flavor scan (count + d) start s)
      (readTag settings' flavor scan' count start s) := by
  cases s with
  | nil => exact .refl _
  | cons c s =>
    rw [readTag, readTag]
    split
    · exact .refl _
    split
    · exact .refl _
    dsimp only
    split
    · exact .refl _
    intro tag h
    split at h
    · cases h
    next site hsite =>
    rw [tagSite_cutsOff hroom _ _ _ _ hsite]
    rw [Nat.add_right_comm] at h
    exact tagWalk_cutsOff hscan _ ⟨site, [], count + site.toList.length⟩ _ _ tag h

/-- So is the site of a call. -/
theorem callSite_cutsOff (hroom : Roomier settings settings' d) (count start place : Nat)
    (s : List Char) :
    CutsOff (callSite settings (count + d) start place s)
      (callSite settings' count start place s) := by
  intro r h
  rw [callSite] at h ⊢
  split at h
  · dsimp only at h ⊢
    rw [hroom.marker]
    split at h
    · exact h
    split at h
    · exact h
    split at h
    · cases h
    next hnew =>
    rw [newSite_cutsOff hroom _ _ _ _ _ hnew]
    exact h
  · exact h

end Readers

/-! ### Script code -/

section Script

variable {s s' : ScriptScan} {d : Nat}

/-- The first scan of code, `d` sites ahead, has less room than the second one and goes with it in
all else. -/
structure ScriptScan.Follows (d : Nat) (s s' : ScriptScan) : Prop where
  room : Roomier s.settings s'.settings d
  scan : s.scan.CutsOff d s'.scan
  jsx : s'.jsx = s.jsx
  lead : s'.lead = s.lead

/-- The state of a walk with `d` more sites recorded before it. -/
def ScriptState.ahead (d : Nat) (st : ScriptState) : ScriptState :=
  { st with count := st.count + d }

/-- The step is that of the other scan, or is cut off. -/
def StepCutsOff (d : Nat) (x y : ScriptStep) : Prop := CutsOff x (y.map (Prod.map id (·.ahead d)))

private theorem openStep_cutsOff (hs : s.Follows d s') (st : ScriptState) (place : Nat)
    (rest : List Char) :
    StepCutsOff d (openStep s (st.ahead d) place rest) (openStep s' st place rest) := by
  intro r h
  rw [openStep] at h ⊢
  split at h
  · cases h
  · next htag =>
    rw [readTag_cutsOff hs.room hs.scan _ _ _ _ htag]
    exact h
  · next tag htag =>
    rw [readTag_cutsOff hs.room hs.scan _ _ _ _ htag]
    cases h
    simp only [Except.map, Prod.map, id, ScriptState.ahead, Nat.add_right_comm]

private theorem identStep_cutsOff (hs : s.Follows d s') (st : ScriptState) (place : Nat)
    (before : List Char) (c : Char) (rest : List Char) :
    StepCutsOff d (identStep s (st.ahead d) place before c rest)
      (identStep s' st place before c rest) := by
  intro r h
  rw [identStep] at h ⊢
  rw [hs.lead]
  split at h
  · next hfactory =>
    rw [if_pos hfactory]
    exact h
  · next hfactory =>
    rw [if_neg hfactory]
    split at h
    · cases h
    · next hcall =>
      rw [callSite_cutsOff hs.room _ _ _ _ _ hcall]
      exact h
    · next site hcall =>
      rw [callSite_cutsOff hs.room _ _ _ _ _ hcall]
      cases h
      simp only [Except.map, Prod.map, id, ScriptState.ahead, Nat.add_right_comm]

private theorem childrenStep_cutsOff (hs : s.Follows d s') (st : ScriptState) (place : Nat)
    (c : Char) (rest : List Char) :
    StepCutsOff d (childrenStep s (st.ahead d) place c rest) (childrenStep s' st place c rest) := by
  rw [childrenStep, childrenStep]
  split
  · exact .refl _
  split
  · split
    · rw [closeStep, closeStep]
      dsimp only
      split
      · simp only [ScriptState.ahead]
        split <;> exact .refl _
      · exact .refl _
    · exact openStep_cutsOff hs st place rest
  · exact .refl _

private theorem scriptCodeStep_cutsOff (hs : s.Follows d s') (st : ScriptState) (place : Nat)
    (before : List Char) (c : Char) (rest : List Char) :
    StepCutsOff d (scriptCodeStep s (st.ahead d) place before c rest)
      (scriptCodeStep s' st place before c rest) := by
  rw [scriptCodeStep, scriptCodeStep, hs.jsx]
  split
  · exact .refl _
  split
  · exact .refl _
  split
  · split <;> exact .refl _
  split
  · exact .refl _
  split
  · exact .refl _
  split
  · exact openStep_cutsOff hs st place rest
  split
  · exact identStep_cutsOff hs st place before c rest
  · exact .refl _

/-- Two scans of code in the same frames take the same step, unless the one with less room is cut
off. -/
theorem scriptStep_cutsOff (hs : s.Follows d s') (st : ScriptState) (place : Nat)
    (before : List Char) (c : Char) (rest : List Char) :
    StepCutsOff d (scriptStep s (st.ahead d) place before c rest)
      (scriptStep s' st place before c rest) := by
  rw [scriptStep, scriptStep]
  simp only [ScriptState.ahead]
  split
  · exact childrenStep_cutsOff hs st place c rest
  · exact scriptCodeStep_cutsOff hs st place before c rest

/-- A walk with sites counted ahead and a lower limit is cut off by one without them and a higher
limit. -/
theorem scriptWalk_cutsOff (hs : s.Follows d s') (chars : List Char) :
    ∀ (st : ScriptState) (place : Nat) (before : List Char) (skip : Nat),
      CutsOff (scriptWalk s (st.ahead d) place before skip chars)
        (scriptWalk s' st place before skip chars) := by
  induction chars with
  | nil => intro st place before skip; cases skip <;> exact .refl _
  | cons c rest ih =>
    intro st place before skip
    cases skip with
    | succ skip => exact ih st (place + 1) (c :: before) skip
    | zero =>
      intro found h
      rw [scriptWalk] at h ⊢
      split at h
      · cases h
      next hstep =>
      obtain ⟨⟨skip, st'⟩, hstep', heq⟩ :=
        (scriptStep_cutsOff hs st place before c rest).exists_of_map hstep
      cases heq
      rw [hstep']
      exact ih st' (place + 1) (c :: before) skip found h

end Script

private theorem scanRegion_cutsOff {settings settings' : ScanSettings} {d : Nat}
    (hroom : Roomier settings settings' d) {scan scan' : InnerScan} (hscan : scan.CutsOff d scan')
    (jsx : Bool) :
    InnerScan.CutsOff d (scanRegion settings jsx scan) (scanRegion settings' jsx scan') := by
  intro count region
  have hs : ScriptScan.Follows d ⟨settings, jsx, scan, region.lead⟩
      ⟨settings', jsx, scan', region.lead⟩ := ⟨hroom, hscan, rfl, rfl⟩
  exact scriptWalk_cutsOff hs region.chars ⟨[.code 0 []], count⟩ region.start [] 0

/-- With more room, or with fewer sites recorded before it, a region of code is scanned to the same
result. -/
theorem scanScript_cutsOff {settings settings' : ScanSettings} {d : Nat}
    (hroom : Roomier settings settings' d) :
    ∀ (levels : Nat) (jsx : Bool),
      (scanScript settings levels jsx).CutsOff d (scanScript settings' levels jsx)
  | 0, jsx => scanRegion_cutsOff hroom InnerScan.cutsOff_nothing jsx
  | levels + 1, jsx => scanRegion_cutsOff hroom (scanScript_cutsOff hroom levels true) jsx

/-! ### Template markup -/

/-- The state of a walk with `d` more sites recorded before it. -/
def MarkupState.ahead (d : Nat) (st : MarkupState) : MarkupState :=
  { st with count := st.count + d }

private theorem MarkupState.place_ahead (st : MarkupState) (d : Nat) (sites : List Site) :
    (st.ahead d).place sites = (st.place sites).ahead d := by
  unfold MarkupState.place MarkupState.ahead
  dsimp only
  split <;> rfl

private theorem MarkupState.record_ahead (st : MarkupState) (d : Nat) (sites : List Site) :
    (st.ahead d).record sites = (st.record sites).ahead d := by
  rw [MarkupState.record, MarkupState.record, st.place_ahead d sites]
  simp only [MarkupState.ahead, Nat.add_right_comm]

section Markup

variable {settings settings' : ScanSettings} {d : Nat} {script script' : Bool → InnerScan}

/-- The step is that of the other scan, or is cut off. -/
def MarkupCutsOff (d : Nat) (x y : MarkupStep) : Prop :=
  CutsOff x (y.map (Prod.map id (·.ahead d)))

private theorem closingStep_ahead (st : MarkupState) (d place : Nat) (rest : List Char) :
    closingStep (st.ahead d) place rest =
      Prod.map id (·.ahead d) (closingStep st place rest) := by
  rw [closingStep, closingStep]
  dsimp only [MarkupState.ahead]
  split
  · next sites elements _ =>
    have hplace := MarkupState.place_ahead { st with elements } d sites
    simp only [MarkupState.ahead] at hplace
    simp only [Prod.map, id, hplace]
  · rfl

private theorem tagStep_cutsOff (hscript : ∀ jsx, (script jsx).CutsOff d (script' jsx))
    (st : MarkupState) (place : Nat) (text : List Char) (tag : Tag) :
    MarkupCutsOff d (tagStep script (st.ahead d) place text tag)
      (tagStep script' st place text tag) := by
  rw [tagStep, tagStep]
  simp only [st.record_ahead]
  split
  · exact .refl _
  split
  · intro r h
    split at h
    · cases h
    next hbody =>
    rw [hscript _ _ _ _ hbody]
    rw [MarkupState.record_ahead] at h
    exact h
  split
  · exact .refl _
  · intro r h
    cases h
    simp only [Except.map, Prod.map, id, MarkupState.ahead, Nat.add_right_comm]

/-- Two scans of markup with the same open elements take the same step, unless the one with less
room is cut off. -/
theorem markupStep_cutsOff (hroom : Roomier settings settings' d)
    (hscript : ∀ jsx, (script jsx).CutsOff d (script' jsx)) (st : MarkupState) (place : Nat)
    (rest : List Char) :
    MarkupCutsOff d (markupStep settings script (st.ahead d) place rest)
      (markupStep settings' script' st place rest) := by
  unfold markupStep
  split
  · split <;> exact .refl _
  · rw [closingStep_ahead]
    exact .refl _
  · exact .refl _
  · exact .refl _
  · intro r h
    split at h
    · cases h
    · next htag =>
      rw [readTag_cutsOff hroom InnerScan.cutsOff_nothing _ _ _ _ htag]
      exact h
    · next tag htag =>
      rw [readTag_cutsOff hroom InnerScan.cutsOff_nothing _ _ _ _ htag]
      exact tagStep_cutsOff hscript st place _ tag r h

private theorem markupWalk_cutsOff (hroom : Roomier settings settings' d)
    (hscript : ∀ jsx, (script jsx).CutsOff d (script' jsx)) (chars : List Char) :
    ∀ (st : MarkupState) (place skip : Nat),
      CutsOff (markupWalk settings script (st.ahead d) place skip chars)
        (markupWalk settings' script' st place skip chars) := by
  induction chars with
  | nil => intro st place skip; cases skip <;> exact .refl _
  | cons c rest ih =>
    intro st place skip
    cases skip with
    | succ skip => exact ih st (place + 1) skip
    | zero =>
      rw [markupWalk, markupWalk]
      split
      · intro found h
        split at h
        · cases h
        next hstep =>
        obtain ⟨⟨skip, st'⟩, hstep', heq⟩ :=
          (markupStep_cutsOff hroom hscript st place rest).exists_of_map hstep
        cases heq
        rw [hstep']
        exact ih st' (place + 1) skip found h
      · exact ih st (place + 1) 0

end Markup

/-! ### Whole texts -/

/-- A text is scanned to the same result under a higher limit on sites. -/
theorem scanText_cutsOff (options : ExtractOptions) {n n' : Nat} (h : n ≤ n') (dialect : Dialect)
    (text : List Char) :
    CutsOff (scanText { options with maxSites := n } dialect text)
      (scanText { options with maxSites := n' } dialect text) := by
  have hroom : Roomier ⟨options.marker.toList, n⟩ ⟨options.marker.toList, n'⟩ 0 := ⟨rfl, h⟩
  cases dialect with
  | script jsx => exact scanScript_cutsOff hroom options.maxDepth jsx 0 (Region.ofText text)
  | template =>
    exact markupWalk_cutsOff hroom (scanScript_cutsOff hroom options.maxDepth) text {} 0 0

/-- The checks of a text are cut off with its scan. -/
theorem findSites_cutsOff (options : ExtractOptions) {b n b' n' : Nat} (hbytes : b ≤ b')
    (hsites : n ≤ n') (dialect : Dialect) (text : List Char) :
    CutsOff (findSites { options with maxBytes := b, maxSites := n } dialect text)
      (findSites { options with maxBytes := b', maxSites := n' } dialect text) := by
  intro sites h
  rw [findSites] at h ⊢
  split at h
  · cases h
  next hsize =>
  rw [if_neg (by dsimp only at hsize ⊢; omega)]
  split
  · next hnul => rwa [if_pos hnul] at h
  next hnul =>
  rw [if_neg hnul] at h
  split
  · next hmention => rwa [if_pos hmention] at h
  next hmention =>
  rw [if_neg hmention] at h
  exact (scanText_cutsOff { options with maxBytes := b } hsites dialect text).map _ sites h

/-- **An extraction under lower limits** either fails or has the result it has under higher ones. -/
theorem extract_cutsOff (options : ExtractOptions) {b n b' n' : Nat} (hbytes : b ≤ b')
    (hsites : n ≤ n') (path text : String) :
    CutsOff (extract { options with maxBytes := b, maxSites := n } path text)
      (extract { options with maxBytes := b', maxSites := n' } path text) :=
  (findSites_cutsOff options hbytes hsites _ _).map _

end ComponentAudit
