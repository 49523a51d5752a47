import ComponentAudit.Proofs.Limit.CutOff
import Mathlib.Data.List.Forall2

/-!
# The limit on nesting

Attribute expressions are scanned inside each other down to a limit. A lower limit only hides the
sites beyond it: the sites that are found are among those found under the higher limit, in the same
order and the same in every field (`scanText_sublist_of_le`).

Two scans with different limits run in step, since nothing that decides a step depends on the sites
found so far: a tag is read to the same place, and a frame is opened or closed at the same
character. The states are therefore related by what they hold, frame by frame: the sites of the one
are a sublist of the sites of the other (`ScriptState.Shallower`, `MarkupState.Shallower`). Only the
number of sites recorded so far can stop a scan, and the scan that is ahead is stopped first. So
each reader and each step of the scan with the lower limit succeeds where the other one does
(`Refines`).

A tag that comes to no end drops the sites in its attributes, in both scans alike: what the deeper
one found there is gone as well.
-/

namespace ComponentAudit

/-! ### Related results -/

/-- Unless the second outcome is an error, the first one is a result too, and the two are
related. -/
def Refines {α β : Type} (R : α → β → Prop) (x : Except ExtractError α)
    (y : Except ExtractError β) : Prop :=
  ∀ b, y = .ok b → ∃ a, x = .ok a ∧ R a b

section Refines

variable {α β : Type} {R : α → β → Prop}

theorem Refines.ok {a : α} {b : β} (h : R a b) : Refines R (.ok a) (.ok b) := by
  rintro _ ⟨⟩
  exact ⟨a, rfl, h⟩

end Refines

/-- Related options are both empty or both full. -/
theorem cases_of_rel {α β : Type} {R : α → β → Prop} {x : Option α} {y : Option β}
    (h : Option.Rel R x y) :
    (x = none ∧ y = none) ∨ ∃ a b, x = some a ∧ y = some b ∧ R a b := by
  cases h with
  | none => exact .inl ⟨rfl, rfl⟩
  | some h => exact .inr ⟨_, _, rfl, rfl, h⟩

/-- The first scan finds some of the sites that the second one finds in the same region, also when
fewer sites have been recorded before it. -/
def InnerScan.Shallower (scan scan' : InnerScan) : Prop :=
  ∀ (count count' : Nat) (region : Region), count ≤ count' →
    Refines List.Sublist (scan count region) (scan' count' region)

private theorem InnerScan.nothing_shallower (scan : InnerScan) :
    InnerScan.Shallower (fun _ _ => .ok []) scan :=
  fun _ _ _ _ found _ => ⟨[], rfl, found.nil_sublist⟩

private theorem exists_roomier (settings : ScanSettings) {count count' : Nat} (h : count ≤ count') :
    ∃ d, count' = count + d ∧ Roomier settings settings d := by
  obtain ⟨d, rfl⟩ := Nat.exists_eq_add_of_le h
  exact ⟨d, rfl, rfl, Nat.le_add_right _ _⟩

/-! ### Tags -/

/-- The first tag is the second one with some of the sites in its attributes. -/
structure Tag.Shallower (t t' : Tag) : Prop where
  name : t.name = t'.name
  site : t.site = t'.site
  inner : t.inner.Sublist t'.inner
  selfClosing : t.selfClosing = t'.selfClosing
  stop : t.stop = t'.stop

/-- The first state is the second one with some of the sites in the attributes. -/
structure TagState.Shallower (st st' : TagState) : Prop where
  site : st.site = st'.site
  inner : st.inner.Sublist st'.inner
  count : st.count ≤ st'.count

/-- A tag that is read less deep has fewer sites. -/
theorem Tag.Shallower.sites {t t' : Tag} (h : t.Shallower t') (stop : Nat) :
    (t.sites stop).Sublist (t'.sites stop) := by
  rw [Tag.sites, Tag.sites, h.site]
  exact h.inner.append (List.Sublist.refl _)

section Tags

variable {settings : ScanSettings} {flavor : Flavor} {scan scan' : InnerScan}

private theorem valueSites_shallower (hscan : scan.Shallower scan') {count count' : Nat}
    (hcount : count ≤ count') (place : Nat) (a : Attribute) :
    Refines List.Sublist (Offset.valueSites scan flavor count place a)
      (Offset.valueSites scan' flavor count' place a) := by
  unfold Offset.valueSites
  split
  · exact hscan _ _ _ hcount
  · exact .ok (List.Sublist.refl _)

private theorem TagState.addAttribute_shallower (hscan : scan.Shallower scan') {st st' : TagState}
    (h : st.Shallower st') (place : Nat) (a : Attribute) :
    Refines TagState.Shallower (st.addAttribute flavor scan place a)
      (st'.addAttribute flavor scan' place a) := by
  intro next' hnext'
  rw [Offset.addAttribute_eq] at hnext'
  rw [Offset.addAttribute_eq]
  split at hnext'
  · cases hnext'
  next found' hfound' =>
  obtain ⟨found, hfound, hsub⟩ := valueSites_shallower hscan h.count place a found' hfound'
  have hinner := hsub.append h.inner
  have hcount := Nat.add_le_add h.count hsub.length_le
  rw [hfound, h.site]
  split at hnext'
  · cases hnext'
    exact ⟨_, rfl, rfl, hinner, hcount⟩
  · split at hnext'
    · cases hnext'
    · cases hnext'
      exact ⟨_, rfl, rfl, hinner, hcount⟩

/-- The attributes of a tag are read to the same end. -/
theorem tagWalk_shallower (hscan : scan.Shallower scan') {name : List Char} (chars : List Char) :
    ∀ {st st' : TagState} (place skip : Nat), st.Shallower st' →
      Refines (Option.Rel Tag.Shallower) (tagWalk flavor scan name st place skip chars)
        (tagWalk flavor scan' name st' place skip chars) := by
  induction chars with
  | nil => intro st st' place skip _; cases skip <;> exact .ok .none
  | cons c rest ih =>
    intro st st' place skip h
    cases skip with
    | succ skip => exact ih (place + 1) skip h
    | zero =>
      rw [tagWalk, tagWalk]
      split
      · exact .ok (.some ⟨rfl, h.site, h.inner, rfl, rfl⟩)
      · exact .ok .none
      · exact ih (place + 1) _ h
      · exact ih (place + 1) _ ⟨by rw [h.site], h.inner, h.count⟩
      · next a _ =>
        intro tag' htag'
        split at htag'
        · cases htag'
        next hadd' =>
        obtain ⟨next, hadd, hnext⟩ :=
          TagState.addAttribute_shallower hscan h place a _ hadd'
        rw [hadd]
        exact ih (place + 1) _ hnext tag' htag'

/-- A start tag is read to the same end, or is none in both scans. -/
theorem readTag_shallower (hscan : scan.Shallower scan') {count count' : Nat}
    (hcount : count ≤ count') (start : Nat) (s : List Char) :
    Refines (Option.Rel Tag.Shallower) (readTag settings flavor scan count start s)
      (readTag settings flavor scan' count' start s) := by
  cases s with
  | nil => exact .ok .none
  | cons c s =>
    rw [readTag, readTag]
    split
    · exact .ok (.some ⟨rfl, rfl, List.Sublist.refl _, rfl, rfl⟩)
    split
    · exact .ok .none
    dsimp only
    split
    · exact .ok .none
    intro tag' htag'
    split at htag'
    · cases htag'
    next site hsite =>
    obtain ⟨d, rfl, hroom⟩ := exists_roomier settings hcount
    rw [tagSite_cutsOff hroom _ _ _ _ hsite]
    have hst : TagState.Shallower ⟨site, [], count + site.toList.length⟩
        ⟨site, [], count + d + site.toList.length⟩ :=
      ⟨rfl, List.Sublist.refl _, Nat.add_le_add_right hcount _⟩
    exact tagWalk_shallower hscan _ _ _ hst tag' htag'

end Tags

/-! ### Frames -/

/-- The first frame is the second one with some of its sites. -/
inductive Frame.Shallower : Frame → Frame → Prop
  | code {found found' : List Site} (braces : Nat) : found.Sublist found' →
      Frame.Shallower (.code braces found) (.code braces found')
  | children {found found' : List Site} (tag : List Char) (site : Option Site) :
      found.Sublist found' →
      Frame.Shallower (.children tag site found) (.children tag site found')

/-- The first state is the second one with some of the sites in each frame. -/
structure ScriptState.Shallower (st st' : ScriptState) : Prop where
  frames : List.Forall₂ Frame.Shallower st.frames st'.frames
  count : st.count ≤ st'.count

section Frames

variable {f f' : Frame} {frames frames' : List Frame} {sites sites' : List Site}

/-- When a frame closes, it has fewer sites. -/
theorem Frame.Shallower.close (h : f.Shallower f') (stop : Nat) :
    (f.close stop).Sublist (f'.close stop) := by
  cases h with
  | code braces hfound => exact hfound
  | children tag site hfound => exact hfound.append (List.Sublist.refl _)

theorem Frame.Shallower.record (h : f.Shallower f') (hsites : sites.Sublist sites') :
    (f.record sites).Shallower (f'.record sites') := by
  cases h with
  | code braces hfound => exact .code braces (hsites.append hfound)
  | children tag site hfound => exact .children tag site (hsites.append hfound)

private theorem closeAll_shallower (h : List.Forall₂ Frame.Shallower frames frames') (stop : Nat) :
    (closeAll stop frames).Sublist (closeAll stop frames') := by
  induction h with
  | nil => exact List.Sublist.refl _
  | cons hf _ ih => exact (hf.close stop).append ih

private theorem recordSites_shallower (hsites : sites.Sublist sites')
    (h : List.Forall₂ Frame.Shallower frames frames') :
    List.Forall₂ Frame.Shallower (recordSites sites frames) (recordSites sites' frames') := by
  cases h with
  | nil => exact .cons (.code 0 hsites) .nil
  | cons hf hframes => exact .cons (hf.record hsites) hframes

private theorem openBrace_shallower (h : List.Forall₂ Frame.Shallower frames frames') :
    List.Forall₂ Frame.Shallower (openBrace frames) (openBrace frames') := by
  cases h with
  | nil => exact .nil
  | cons hf hframes =>
    cases hf with
    | code braces hfound => exact .cons (.code (braces + 1) hfound) hframes
    | children tag site hfound => exact .cons (.children tag site hfound) hframes

private theorem closeBrace_shallower (h : List.Forall₂ Frame.Shallower frames frames') :
    List.Forall₂ Frame.Shallower (closeBrace frames) (closeBrace frames') := by
  cases h with
  | nil => exact .nil
  | cons hf hframes =>
    cases hf with
    | children tag site hfound => exact .cons (.children tag site hfound) hframes
    | code braces hfound =>
      cases braces with
      | succ braces => exact .cons (.code braces hfound) hframes
      | zero =>
        cases hframes with
        | nil => exact .cons (.code 0 hfound) .nil
        | cons hg hframes => exact recordSites_shallower hfound (.cons hg hframes)

/-- A closing tag closes the same elements. -/
theorem closeElements?_shallower (name : List Char) (stop : Nat)
    (h : List.Forall₂ Frame.Shallower frames frames') :
    Option.Rel (fun p p' => p.1.Sublist p'.1 ∧ List.Forall₂ Frame.Shallower p.2 p'.2)
      (closeElements? name stop frames) (closeElements? name stop frames') := by
  induction h with
  | nil => exact .none
  | cons hf hframes ih =>
    cases hf with
    | code braces hfound => exact .none
    | children tag site hfound =>
      have hown := (Frame.Shallower.children tag site hfound).close stop
      rw [closeElements?, closeElements?]
      split
      · exact .some ⟨hown, hframes⟩
      · rcases cases_of_rel ih with ⟨hrest, hrest'⟩ | ⟨_, _, hrest, hrest', hsites, hframes⟩
        · rw [hrest, hrest']
          exact .none
        · rw [hrest, hrest']
          exact .some ⟨hown.append hsites, hframes⟩

end Frames

/-! ### Script code -/

section Script

variable {s s' : ScriptScan} {st st' : ScriptState}

/-- The first scan of code looks less deep into attribute expressions than the second one. -/
structure ScriptScan.Shallower (s s' : ScriptScan) : Prop where
  settings : s.settings = s'.settings
  scan : s.scan.Shallower s'.scan
  jsx : s.jsx = s'.jsx
  lead : s.lead = s'.lead

/-- Two steps pass over the same characters into related states. -/
def StepShallower (p p' : Nat × ScriptState) : Prop := p.1 = p'.1 ∧ p.2.Shallower p'.2

private theorem openStep_shallower (hs : s.Shallower s') (h : st.Shallower st') (place : Nat)
    (rest : List Char) :
    Refines StepShallower (openStep s st place rest) (openStep s' st' place rest) := by
  have htag : Refines (Option.Rel Tag.Shallower) (readTag s'.settings .jsx s.scan _ place rest)
      (readTag s'.settings .jsx s'.scan _ place rest) :=
    readTag_shallower hs.scan h.count place rest
  rw [openStep, openStep, hs.settings]
  intro p' hp'
  split at hp'
  · cases hp'
  · next hnone =>
    cases hp'
    obtain ⟨_, hread, ⟨⟩⟩ := htag _ hnone
    rw [hread]
    exact ⟨_, rfl, rfl, h⟩
  · next tag' hsome =>
    cases hp'
    obtain ⟨_, hread, hrel⟩ := htag _ hsome
    -- The tags agree in all but the sites inside them, so the same element is opened or recorded.
    cases hrel with
    | @some tag _ htag =>
      have hsites := htag.sites tag'.stop
      rw [hread]
      refine ⟨_, rfl, by rw [htag.stop], ?_, ?_⟩
      · dsimp only
        rw [htag.selfClosing, htag.stop]
        split
        · exact recordSites_shallower hsites h.frames
        · rw [htag.name, htag.site]
          exact .cons (.children _ _ htag.inner) h.frames
      · dsimp only
        rw [htag.stop]
        exact Nat.add_le_add h.count hsites.length_le

private theorem closeStep_shallower (h : st.Shallower st') (place : Nat) (rest : List Char) :
    StepShallower (closeStep st place rest) (closeStep st' place rest) := by
  have hclose := fun name stop => cases_of_rel (closeElements?_shallower name stop h.frames)
  unfold closeStep
  extract_lets afterSlash nameStart name afterName
  split
  · next skip _ _ _ =>
    rcases hclose name (place + 1 + skip) with ⟨hst, hst'⟩ | ⟨_, _, hst, hst', hsites, hframes⟩
    · rw [hst, hst']
      exact ⟨rfl, h⟩
    · rw [hst, hst']
      exact ⟨rfl, recordSites_shallower hsites hframes, h.count⟩
  · exact ⟨rfl, h⟩

private theorem identStep_shallower (hs : s.Shallower s') (h : st.Shallower st') (place : Nat)
    (before : List Char) (c : Char) (rest : List Char) :
    Refines StepShallower (identStep s st place before c rest)
      (identStep s' st' place before c rest) := by
  rw [identStep, identStep, hs.lead, hs.settings]
  split
  · exact .ok ⟨rfl, h⟩
  intro p' hp'
  obtain ⟨d, hd, hroom⟩ := exists_roomier s'.settings h.count
  rw [hd] at hp'
  split at hp'
  · cases hp'
  · next hcall =>
    cases hp'
    rw [callSite_cutsOff hroom _ _ _ _ _ hcall]
    exact ⟨_, rfl, rfl, h⟩
  · next site hcall =>
    cases hp'
    rw [callSite_cutsOff hroom _ _ _ _ _ hcall]
    exact ⟨_, rfl, rfl, recordSites_shallower (List.Sublist.refl _) h.frames,
      Nat.add_le_add_right (Nat.le_add_right _ _) 1⟩

private theorem childrenStep_shallower (hs : s.Shallower s') (h : st.Shallower st') (place : Nat)
    (c : Char) (rest : List Char) :
    Refines StepShallower (childrenStep s st place c rest) (childrenStep s' st' place c rest) := by
  rw [childrenStep, childrenStep]
  split
  · exact .ok ⟨rfl, .cons (.code 0 (List.Sublist.refl _)) h.frames, h.count⟩
  split
  · split
    · exact .ok (closeStep_shallower h place rest)
    · exact openStep_shallower hs h place rest
  · exact .ok ⟨rfl, h⟩

private theorem scriptCodeStep_shallower (hs : s.Shallower s') (h : st.Shallower st') (place : Nat)
    (before : List Char) (c : Char) (rest : List Char) :
    Refines StepShallower (scriptCodeStep s st place before c rest)
      (scriptCodeStep s' st' place before c rest) := by
  rw [scriptCodeStep, scriptCodeStep, hs.jsx]
  split
  · exact .ok ⟨rfl, h⟩
  split
  · exact .ok ⟨rfl, h⟩
  split
  · split <;> exact .ok ⟨rfl, h⟩
  split
  · exact .ok ⟨rfl, openBrace_shallower h.frames, h.count⟩
  split
  · exact .ok ⟨rfl, closeBrace_shallower h.frames, h.count⟩
  split
  · exact openStep_shallower hs h place rest
  split
  · exact identStep_shallower hs h place before c rest
  · exact .ok ⟨rfl, h⟩

/-- Two scans of code in related states take the same step. -/
theorem scriptStep_shallower (hs : s.Shallower s') (h : st.Shallower st') (place : Nat)
    (before : List Char) (c : Char) (rest : List Char) :
    Refines StepShallower (scriptStep s st place before c rest)
      (scriptStep s' st' place before c rest) := by
  obtain ⟨frames, count⟩ := st
  obtain ⟨frames', count'⟩ := st'
  have hchildren := childrenStep_shallower hs h place c rest
  have hcode := scriptCodeStep_shallower hs h place before c rest
  -- The innermost frames are of one kind.
  obtain ⟨hframes, -⟩ := h
  cases hframes with
  | nil => exact hcode
  | cons hf _ =>
    cases hf with
    | code => exact hcode
    | children => exact hchildren

/-- **A walk of less depth** goes through the same frames with fewer sites in them. -/
theorem scriptWalk_shallower (hs : s.Shallower s') (chars : List Char) :
    ∀ {st st' : ScriptState} (place : Nat) (before : List Char) (skip : Nat), st.Shallower st' →
      Refines List.Sublist (scriptWalk s st place before skip chars)
        (scriptWalk s' st' place before skip chars) := by
  induction chars with
  | nil =>
    intro st st' place before skip h
    cases skip <;> exact .ok (closeAll_shallower h.frames place)
  | cons c rest ih =>
    intro st st' place before skip h
    cases skip with
    | succ skip => exact ih (place + 1) (c :: before) skip h
    | zero =>
      intro found' hfound'
      rw [scriptWalk] at hfound' ⊢
      split at hfound'
      · cases hfound'
      next hstep' =>
      obtain ⟨⟨skip, next⟩, hstep, rfl, hnext⟩ :=
        scriptStep_shallower hs h place before c rest _ hstep'
      rw [hstep]
      exact ih (place + 1) (c :: before) skip hnext found' hfound'

end Script

/-- A scan of a region is shallower if the scan of what is nested in it is. -/
theorem scanRegion_shallower (settings : ScanSettings) {scan scan' : InnerScan}
    (hscan : scan.Shallower scan') (jsx : Bool) :
    InnerScan.Shallower (scanRegion settings jsx scan) (scanRegion settings jsx scan') := by
  intro count count' region hcount
  have hs : ScriptScan.Shallower ⟨settings, jsx, scan, region.lead⟩
      ⟨settings, jsx, scan', region.lead⟩ := ⟨rfl, hscan, rfl, rfl⟩
  have hst : ScriptState.Shallower ⟨[.code 0 []], count⟩ ⟨[.code 0 []], count'⟩ :=
    ⟨.cons (.code 0 (List.Sublist.refl _)) .nil, hcount⟩
  exact scriptWalk_shallower hs region.chars region.start [] 0 hst

/-- A scan with fewer levels for attribute expressions finds some of the sites. -/
theorem scanScript_shallower (settings : ScanSettings) :
    ∀ {levels levels' : Nat}, levels ≤ levels' → ∀ jsx : Bool,
      (scanScript settings levels jsx).Shallower (scanScript settings levels' jsx)
  | 0, 0, _, jsx => scanRegion_shallower settings (InnerScan.nothing_shallower _) jsx
  | 0, _ + 1, _, jsx => scanRegion_shallower settings (InnerScan.nothing_shallower _) jsx
  | _ + 1, _ + 1, h, jsx =>
    scanRegion_shallower settings (scanScript_shallower settings (Nat.le_of_succ_le_succ h) true)
      jsx

/-! ### Template markup -/

/-- The first element is the second one with some of the sites found in it. -/
structure OpenElement.Shallower (e e' : OpenElement) : Prop where
  tag : e.tag = e'.tag
  site : e.site = e'.site
  found : e.found.Sublist e'.found

/-- The first state is the second one with some of the sites in each open element and outside. -/
structure MarkupState.Shallower (st st' : MarkupState) : Prop where
  elements : List.Forall₂ OpenElement.Shallower st.elements st'.elements
  found : st.found.Sublist st'.found
  count : st.count ≤ st'.count

section Markup

variable {settings : ScanSettings} {script script' : Bool → InnerScan} {st st' : MarkupState}
  {elements elements' : List OpenElement} {sites sites' : List Site}

/-- When an element closes, it has fewer sites. -/
theorem OpenElement.Shallower.close {e e' : OpenElement} (h : e.Shallower e') (stop : Nat) :
    (e.close stop).Sublist (e'.close stop) := by
  rw [OpenElement.close, OpenElement.close, h.site]
  exact h.found.append (List.Sublist.refl _)

/-- The innermost open element takes in fewer sites. -/
theorem MarkupState.Shallower.place (h : st.Shallower st') (hsites : sites.Sublist sites') :
    (st.place sites).Shallower (st'.place sites') := by
  obtain ⟨elements, found, count⟩ := st
  obtain ⟨elements', found', count'⟩ := st'
  obtain ⟨helements, hfound, hcount⟩ := h
  cases helements with
  | nil => exact ⟨.nil, hsites.append hfound, hcount⟩
  | cons he hrest =>
    exact ⟨.cons ⟨he.tag, he.site, hsites.append he.found⟩ hrest, hfound, hcount⟩

theorem MarkupState.Shallower.record (h : st.Shallower st') (hsites : sites.Sublist sites') :
    (st.record sites).Shallower (st'.record sites') := by
  obtain ⟨helements, hfound, -⟩ := h.place hsites
  exact ⟨helements, hfound, Nat.add_le_add h.count hsites.length_le⟩

private theorem closeElements_shallower (h : List.Forall₂ OpenElement.Shallower elements elements')
    (stop : Nat) :
    (elements.flatMap (·.close stop)).Sublist (elements'.flatMap (·.close stop)) := by
  induction h with
  | nil => exact List.Sublist.refl _
  | cons he _ ih => exact (he.close stop).append ih

/-- When the markup ends, there are fewer sites. -/
theorem MarkupState.Shallower.finish (h : st.Shallower st') (stop : Nat) :
    (st.finish stop).Sublist (st'.finish stop) :=
  (closeElements_shallower h.elements stop).append h.found

/-- A closing tag closes the same elements. -/
theorem closeNamed?_shallower (name : List Char) (stop : Nat)
    (h : List.Forall₂ OpenElement.Shallower elements elements') :
    Option.Rel (fun p p' => p.1.Sublist p'.1 ∧ List.Forall₂ OpenElement.Shallower p.2 p'.2)
      (closeNamed? name stop elements) (closeNamed? name stop elements') := by
  induction h with
  | nil => exact .none
  | cons he helements ih =>
    rw [closeNamed?, closeNamed?, he.tag]
    split
    · exact .some ⟨he.close stop, helements⟩
    · rcases cases_of_rel ih with ⟨hrest, hrest'⟩ | ⟨_, _, hrest, hrest', hsites, helements⟩
      · rw [hrest, hrest']
        exact .none
      · rw [hrest, hrest']
        exact .some ⟨(he.close stop).append hsites, helements⟩

/-- Two steps pass over the same characters into related states. -/
def MarkupStepShallower (p p' : Nat × MarkupState) : Prop := p.1 = p'.1 ∧ p.2.Shallower p'.2

private theorem closingStep_shallower (h : st.Shallower st') (place : Nat) (rest : List Char) :
    MarkupStepShallower (closingStep st place rest) (closingStep st' place rest) := by
  have hclose := fun name stop => cases_of_rel (closeNamed?_shallower name stop h.elements)
  unfold closingStep
  extract_lets nameStart name skip
  rcases hclose name (place + 1 + skip) with ⟨hst, hst'⟩ | ⟨_, _, hst, hst', hsites, helements⟩
  · rw [hst, hst']
    exact ⟨rfl, h⟩
  · rw [hst, hst']
    exact ⟨rfl, MarkupState.Shallower.place ⟨helements, h.found, h.count⟩ hsites⟩

private theorem tagStep_shallower (hscript : ∀ jsx, (script jsx).Shallower (script' jsx))
    (h : st.Shallower st') (place : Nat) (text : List Char) (tag : Tag) :
    Refines MarkupStepShallower (tagStep script st place text tag)
      (tagStep script' st' place text tag) := by
  have hrecord : ∀ stop, (st.record (tag.sites stop)).Shallower (st'.record (tag.sites stop)) :=
    fun stop => h.record (List.Sublist.refl _)
  rw [tagStep, tagStep]
  dsimp only
  split
  · exact .ok ⟨rfl, hrecord _⟩
  split
  · intro p' hp'
    split at hp'
    · cases hp'
    next found' hfound' =>
    cases hp'
    obtain ⟨found, hfound, hsub⟩ := hscript _ _ _ _ (hrecord place).count found' hfound'
    rw [hfound]
    exact ⟨_, rfl, rfl, (hrecord place).record hsub⟩
  split
  · exact .ok ⟨rfl, hrecord _⟩
  · exact .ok ⟨rfl, .cons ⟨rfl, rfl, List.Sublist.refl _⟩ h.elements, h.found,
      Nat.add_le_add_right h.count _⟩

/-- Two scans of markup in related states take the same step. -/
theorem markupStep_shallower (hscript : ∀ jsx, (script jsx).Shallower (script' jsx))
    (h : st.Shallower st') (place : Nat) (rest : List Char) :
    Refines MarkupStepShallower (markupStep settings script st place rest)
      (markupStep settings script' st' place rest) := by
  unfold markupStep
  split
  · split <;> exact .ok ⟨rfl, h⟩
  · exact .ok (closingStep_shallower h place _)
  · exact .ok ⟨rfl, h⟩
  · exact .ok ⟨rfl, h⟩
  · intro p' hp'
    obtain ⟨d, hd, hroom⟩ := exists_roomier settings h.count
    rw [hd] at hp'
    split at hp'
    · cases hp'
    · next htag =>
      cases hp'
      rw [readTag_cutsOff hroom InnerScan.cutsOff_nothing _ _ _ _ htag]
      exact ⟨_, rfl, rfl, h⟩
    · next tag htag =>
      rw [readTag_cutsOff hroom InnerScan.cutsOff_nothing _ _ _ _ htag]
      exact tagStep_shallower hscript h place _ tag p' hp'

/-- A walk through markup goes through the same elements with fewer sites in them. -/
theorem markupWalk_shallower (hscript : ∀ jsx, (script jsx).Shallower (script' jsx))
    (chars : List Char) :
    ∀ {st st' : MarkupState} (place skip : Nat), st.Shallower st' →
      Refines List.Sublist (markupWalk settings script st place skip chars)
        (markupWalk settings script' st' place skip chars) := by
  induction chars with
  | nil =>
    intro st st' place skip h
    cases skip <;> exact .ok (h.finish place)
  | cons c rest ih =>
    intro st st' place skip h
    cases skip with
    | succ skip => exact ih (place + 1) skip h
    | zero =>
      rw [markupWalk, markupWalk]
      split
      · intro found' hfound'
        split at hfound'
        · cases hfound'
        next hstep' =>
        obtain ⟨⟨skip, next⟩, hstep, rfl, hnext⟩ :=
          markupStep_shallower hscript h place rest _ hstep'
        rw [hstep]
        exact ih (place + 1) skip hnext found' hfound'
      · exact ih (place + 1) 0 h

end Markup

/-! ### Whole texts -/

/-- **The limit on nesting only hides sites.** When the scan with the higher limit has a result, so
has the scan with the lower one, whatever the text, the dialect and the marker. Its sites are a
sublist of the sites of the other: they are recorded in the same order, and each is the same in
every field. -/
theorem scanText_sublist_of_le (options : ExtractOptions) {depth depth' : Nat}
    (h : depth ≤ depth') (dialect : Dialect) (text : List Char) {found' : List Site}
    (hfound' : scanText { options with maxDepth := depth' } dialect text = .ok found') :
    ∃ found, scanText { options with maxDepth := depth } dialect text = .ok found ∧
      found.Sublist found' := by
  have hscript := scanScript_shallower ⟨options.marker.toList, options.maxSites⟩ h
  cases dialect with
  | script jsx => exact hscript jsx 0 0 (Region.ofText text) (Nat.le_refl 0) found' hfound'
  | template =>
    exact markupWalk_shallower hscript text 0 0 ⟨.nil, .slnil, Nat.le_refl 0⟩ found' hfound'

/-- The site in an attribute expression is hidden, and the site behind it is not. -/
theorem scanText_sublist_of_le_attribute :
    let text := "<div a=\x7b<va-link/>\x7d/><va-card/>".toList
    let card : Site := ⟨"va-card", "va-card", 21, 31, {}, false⟩
    0 ≤ 1 ∧ scanText { maxDepth := 1 } (.script true) text =
        .ok [card, ⟨"va-link", "va-link", 8, 18, {}, false⟩] ∧
      scanText { maxDepth := 0 } (.script true) text = .ok [card] ∧
      [card].Sublist [card, ⟨"va-link", "va-link", 8, 18, {}, false⟩] := by
  intro text card
  have hdeep : scanText { maxDepth := 1 } (.script true) text =
      .ok [card, ⟨"va-link", "va-link", 8, 18, {}, false⟩] := by decide +kernel
  have hflat : scanText { maxDepth := 0 } (.script true) text = .ok [card] := by decide +kernel
  obtain ⟨found, hfound, hsub⟩ := scanText_sublist_of_le {} (Nat.zero_le 1) _ _ hdeep
  obtain rfl : found = [card] := Except.ok.inj (hfound.symm.trans hflat)
  exact ⟨Nat.zero_le 1, hdeep, hflat, hsub⟩

end ComponentAudit
