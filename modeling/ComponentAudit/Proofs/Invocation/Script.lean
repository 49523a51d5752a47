import ComponentAudit.Proofs.Invocation.Tag

/-!
# Invocations in script code

The frames of a scan of code hold the sites found so far, so together they are one list of
invocations, latest first. Closing an element, an expression or a brace moves sites from one frame
to another and leaves this list as it is. `scriptStep_traced` says what a step can do to it: put
real invocations of the stretch that the step passes over in front. The scan of a region, run by
run and level by level, then finds real invocations of the region (`scanScript_traces`).

Elements are open only where tags are recognized, which is what `TagFree` records; so code without
tags yields calls alone.
-/

namespace ComponentAudit

/-! ### Frames as one list -/

/-- The invocations of a frame, latest first. -/
def Frame.invocations : Frame → List Invocation
  | .code _ found => found.map Site.invocation
  | .children _ site found => (found ++ site.toList).map Site.invocation

/-- The invocations of all frames, latest first. -/
def invocationsOf (frames : List Frame) : List Invocation := frames.flatMap Frame.invocations

@[simp]
theorem invocationsOf_nil : invocationsOf [] = [] := rfl

@[simp]
theorem invocationsOf_cons (f : Frame) (frames : List Frame) :
    invocationsOf (f :: frames) = f.invocations ++ invocationsOf frames := rfl

/-- The invocations of a frame do not change when it closes. -/
theorem Frame.map_invocation_close (f : Frame) (stop : Nat) :
    (f.close stop).map Site.invocation = f.invocations := by
  cases f <;> simp [Frame.close, Frame.invocations]

/-- New sites in a frame are its latest invocations. -/
theorem Frame.invocations_record (f : Frame) (sites : List Site) :
    (f.record sites).invocations = sites.map Site.invocation ++ f.invocations := by
  cases f <;> simp [Frame.record, Frame.invocations]

/-- New sites are the latest invocations of all. -/
theorem invocationsOf_recordSites (sites : List Site) (frames : List Frame) :
    invocationsOf (recordSites sites frames) =
      sites.map Site.invocation ++ invocationsOf frames := by
  cases frames with
  | nil => simp [recordSites, Frame.invocations]
  | cons f frames => simp [recordSites, Frame.invocations_record]

/-- When everything closes, the invocations are those of the frames. -/
theorem map_invocation_closeAll (stop : Nat) (frames : List Frame) :
    (closeAll stop frames).map Site.invocation = invocationsOf frames := by
  induction frames with
  | nil => rfl
  | cons f frames ih =>
    rw [invocationsOf_cons, ← ih, ← f.map_invocation_close stop, closeAll, List.flatMap_cons,
      List.map_append]
    rfl

/-- Closing elements loses no invocation and adds none. -/
theorem invocationsOf_closeElements? {name : List Char} {stop : Nat} {frames frames' : List Frame}
    {sites : List Site} (h : closeElements? name stop frames = some (sites, frames')) :
    sites.map Site.invocation ++ invocationsOf frames' = invocationsOf frames := by
  induction frames generalizing sites with
  | nil => cases h
  | cons f frames ih =>
    cases f with
    | code => cases h
    | children tag site found =>
      simp only [closeElements?] at h
      split at h
      · cases h
        rw [Frame.map_invocation_close, invocationsOf_cons]
      · obtain ⟨⟨inner, rest⟩, hinner, heq⟩ := Option.map_eq_some_iff.1 h
        simp only [Prod.mk.injEq] at heq
        obtain ⟨rfl, rfl⟩ := heq
        rw [List.map_append, List.append_assoc, ih hinner, Frame.map_invocation_close,
          invocationsOf_cons]

/-- An opening brace adds no invocation. -/
theorem invocationsOf_openBrace (frames : List Frame) :
    invocationsOf (openBrace frames) = invocationsOf frames := by
  unfold openBrace
  split <;> simp [Frame.invocations]

/-- A closing brace loses none. -/
theorem invocationsOf_closeBrace (frames : List Frame) :
    invocationsOf (closeBrace frames) = invocationsOf frames := by
  unfold closeBrace
  split
  · simp [Frame.invocations]
  · rw [invocationsOf_recordSites]
    rfl
  · rfl

/-! ### Code without tags -/

/-- If tags are not recognized, no element is open. -/
def TagFree (jsx : Bool) (frames : List Frame) : Prop :=
  jsx = true ∨ ∀ f ∈ frames, ∃ braces found, f = .code braces found

/-- Without tags no site opens an element. -/
theorem TagFree.recordSites {jsx : Bool} {frames : List Frame} (h : TagFree jsx frames)
    (sites : List Site) : TagFree jsx (recordSites sites frames) := by
  refine h.imp_right fun h f hf => ?_
  cases frames with
  | nil => exact ⟨0, sites, List.mem_singleton.1 hf⟩
  | cons g frames =>
    rcases List.mem_cons.1 hf with rfl | hf
    · obtain ⟨braces, found, rfl⟩ := h g List.mem_cons_self
      exact ⟨braces, sites ++ found, rfl⟩
    · exact h f (List.mem_cons_of_mem _ hf)

/-- Nor does a brace. -/
theorem TagFree.openBrace {jsx : Bool} {frames : List Frame} (h : TagFree jsx frames) :
    TagFree jsx (openBrace frames) := by
  unfold ComponentAudit.openBrace
  split
  · next braces found frames =>
    refine h.imp_right fun h f hf => ?_
    rcases List.mem_cons.1 hf with rfl | hf
    · exact ⟨braces + 1, found, rfl⟩
    · exact h f (List.mem_cons_of_mem _ hf)
  · exact h

/-- Nor does a closing brace. -/
theorem TagFree.closeBrace {jsx : Bool} {frames : List Frame} (h : TagFree jsx frames) :
    TagFree jsx (closeBrace frames) := by
  unfold ComponentAudit.closeBrace
  split
  · next braces found frames =>
    refine h.imp_right fun h f hf => ?_
    rcases List.mem_cons.1 hf with rfl | hf
    · exact ⟨braces, found, rfl⟩
    · exact h f (List.mem_cons_of_mem _ hf)
  · next found f frames =>
    refine TagFree.recordSites ?_ found
    exact h.imp_right fun h f hf => h f (List.mem_cons_of_mem _ hf)
  · exact h

/-! ### Steps -/

section Step

variable {s : ScriptScan} {st st' : ScriptState} {text rest before : List Char} {c : Char}
  {place skip : Nat}

/-- What a step may do: put real invocations of the stretch it passes over in front of the others,
and open elements only where tags are recognized. -/
def StepTraced (s : ScriptScan) (text : List Char) (place skip : Nat) (rest : List Char)
    (st st' : ScriptState) : Prop :=
  (∃ new, invocationsOf st'.frames = new ++ invocationsOf st.frames ∧
    Traced s.settings.marker s.jsx text place (place + 1 + min skip rest.length) new) ∧
  TagFree s.jsx st'.frames

/-- A step that finds nothing. -/
theorem StepTraced.of_eq (h : invocationsOf st'.frames = invocationsOf st.frames)
    (hfree : TagFree s.jsx st'.frames) : StepTraced s text place skip rest st st' :=
  ⟨⟨[], h, Traced.nil⟩, hfree⟩

private theorem openStep_traced (hscan : s.scan.Traces s.settings.marker true text)
    (htext : '<' :: rest <+: text.drop place) (hjsx : s.jsx = true)
    (h : openStep s st place rest = .ok (skip, st')) :
    StepTraced s text place skip rest st st' := by
  rw [openStep] at h
  split at h
  · cases h
  · cases h
    exact .of_eq rfl (.inl hjsx)
  · next tag htag =>
    cases h
    obtain ⟨htraced, hlt, hle⟩ := readTag_traced hscan htext htag
    refine ⟨⟨tag.invocations, ?_, ?_⟩, .inl hjsx⟩
    · simp only
      split
      · rw [invocationsOf_recordSites, Tag.map_invocation_sites]
      · rfl
    · rw [hjsx]
      exact htraced.mono (Nat.le_refl _) (by omega)

private theorem closeStep_traced (hfree : TagFree s.jsx st.frames)
    (hjsx : s.jsx = true) (h : closeStep st place rest = (skip, st')) :
    StepTraced s text place skip rest st st' := by
  simp only [closeStep] at h
  split at h
  · split at h
    · next sites frames hclose =>
      cases h
      refine .of_eq ?_ (.inl hjsx)
      rw [invocationsOf_recordSites, invocationsOf_closeElements? hclose]
    · cases h
      exact .of_eq rfl hfree
  · cases h
    exact .of_eq rfl hfree

private theorem childrenStep_traced (hscan : s.scan.Traces s.settings.marker true text)
    (htext : c :: rest <+: text.drop place) (hfree : TagFree s.jsx st.frames)
    (hjsx : s.jsx = true) (h : childrenStep s st place c rest = .ok (skip, st')) :
    StepTraced s text place skip rest st st' := by
  rw [childrenStep] at h
  split at h
  · cases h
    exact .of_eq rfl (.inl hjsx)
  · split at h
    · next hc =>
      subst hc
      split at h
      · exact closeStep_traced hfree hjsx (Except.ok.inj h)
      · exact openStep_traced hscan htext hjsx h
    · cases h
      exact .of_eq rfl hfree

/-- A call is recorded at the place of its factory. -/
theorem identStep_traced (htext : c :: rest <+: text.drop place) (hfree : TagFree s.jsx st.frames)
    (h : identStep s st place before c rest = .ok (skip, st')) :
    StepTraced s text place skip rest st st' := by
  simp only [identStep] at h
  split at h
  · cases h
    exact .of_eq rfl hfree
  · next hfactory =>
    simp only [Bool.or_eq_true, Bool.not_eq_eq_eq_not, Bool.not_true, decide_eq_true_eq,
      not_or, Bool.not_eq_false] at hfactory
    split at h
    · cases h
    · cases h
      exact .of_eq rfl hfree
    · next site hsite =>
      cases h
      obtain ⟨hstart, hcanonical, gap, gap', quote, hgap, hgap', hquote, hbegin⟩ :=
        callSite_real hsite
      have hreal : site.invocation.Real s.settings.marker s.jsx text := by
        refine ⟨hcanonical, .inr (BeginsCall.of_isPrefix ?_ (hstart ▸ htext))⟩
        -- A call is a factory, a parenthesis and the tag, quoted or not, with blanks between them.
        refine ⟨_, List.contains_iff_mem.1 hfactory.1, gap, gap', quote, hgap, hgap', hquote, ?_⟩
        have hcall := (List.prefix_append_right_inj
          ((c :: rest).take (Script.pathLength (c :: rest)))).2 hbegin
        rw [List.take_append_drop] at hcall
        simpa only [List.append_assoc, Site.invocation] using hcall
      refine ⟨⟨[site.invocation], ?_, ?_⟩, hfree.recordSites _⟩
      · rw [invocationsOf_recordSites]
        rfl
      · have hplace : site.invocation.start = place := hstart
        have hown := Traced.singleton hreal (Nat.lt_of_lt_of_le
          (hplace ▸ Nat.lt_succ_self place)
          (Nat.le_add_right (place + 1) (min (Script.pathLength (c :: rest) - 1) rest.length)))
        rwa [hplace] at hown

/-- A step in code adds at most one invocation and its inner ones, all of them in the text it passes
over. -/
theorem scriptCodeStep_traced (hscan : s.scan.Traces s.settings.marker true text)
    (htext : c :: rest <+: text.drop place) (hfree : TagFree s.jsx st.frames)
    (h : scriptCodeStep s st place before c rest = .ok (skip, st')) :
    StepTraced s text place skip rest st st' := by
  rw [scriptCodeStep] at h
  split at h
  · cases h
    exact .of_eq rfl hfree
  split at h
  · cases h
    exact .of_eq rfl hfree
  split at h
  · split at h <;> cases h <;> exact .of_eq rfl hfree
  split at h
  · cases h
    exact .of_eq (invocationsOf_openBrace _) hfree.openBrace
  split at h
  · cases h
    exact .of_eq (invocationsOf_closeBrace _) hfree.closeBrace
  split at h
  · next hopen =>
    simp only [Bool.and_eq_true, decide_eq_true_eq] at hopen
    obtain ⟨⟨⟨rfl, hjsx⟩, _⟩, _⟩ := hopen
    exact openStep_traced hscan htext hjsx h
  split at h
  · exact identStep_traced htext hfree h
  · cases h
    exact .of_eq rfl hfree

/-- What a step of the scan of code can do to the invocations. -/
theorem scriptStep_traced (hscan : s.scan.Traces s.settings.marker true text)
    (htext : c :: rest <+: text.drop place) (hfree : TagFree s.jsx st.frames)
    (h : scriptStep s st place before c rest = .ok (skip, st')) :
    StepTraced s text place skip rest st st' := by
  rw [scriptStep] at h
  split at h
  · next tag site found frames hframes =>
    -- An element is open, so tags are recognized.
    have hjsx : s.jsx = true := by
      refine hfree.resolve_right fun hcode => ?_
      obtain ⟨_, _, hf⟩ := hcode (.children tag site found) (hframes ▸ List.mem_cons_self)
      cases hf
    exact childrenStep_traced hscan htext hfree hjsx h
  · exact scriptCodeStep_traced hscan htext hfree h

end Step

/-! ### Walk -/

/-- The walk finds real invocations of its region, besides those it has already. -/
theorem scriptWalk_traced {s : ScriptScan} {text : List Char}
    (hscan : s.scan.Traces s.settings.marker true text) {found : List Site} (chars : List Char) :
    ∀ (st : ScriptState) (place : Nat) (before : List Char) (skip : Nat),
      chars <+: text.drop place → TagFree s.jsx st.frames →
      scriptWalk s st place before skip chars = .ok found →
        ∃ new, found.map Site.invocation = new ++ invocationsOf st.frames ∧
          Traced s.settings.marker s.jsx text (place + min skip chars.length)
            (place + chars.length) new := by
  induction chars with
  | nil =>
    intro st place before skip _ _ h
    cases skip <;> cases h <;> exact ⟨[], map_invocation_closeAll _ _, Traced.nil⟩
  | cons c rest ih =>
    intro st place before skip htext hfree h
    have hrest : rest <+: text.drop (place + 1) := prefix_drop_add htext 1
    cases skip with
    | succ n =>
      obtain ⟨new, hnew, htraced⟩ := ih st (place + 1) (c :: before) n hrest hfree h
      refine ⟨new, hnew, htraced.mono ?_ ?_⟩ <;> simp only [List.length_cons] <;> omega
    | zero =>
      rw [scriptWalk] at h
      split at h
      · cases h
      · next skip st' hstep =>
        obtain ⟨⟨new, hnew, htraced⟩, hfree'⟩ := scriptStep_traced hscan htext hfree hstep
        obtain ⟨later, hlater, htraced'⟩ := ih st' (place + 1) (c :: before) skip hrest hfree' h
        refine ⟨later ++ new, by rw [hlater, hnew, List.append_assoc], ?_⟩
        refine (htraced'.append htraced (by omega) (by omega)).mono ?_ ?_ <;>
          simp only [List.length_cons] <;> omega

/-- A scan of a region is traced if the scan of what is nested in it is. -/
theorem scanRegion_traces {settings : ScanSettings} {jsx : Bool} {scan : InnerScan}
    {text : List Char} (hscan : scan.Traces settings.marker true text) :
    InnerScan.Traces settings.marker jsx text (scanRegion settings jsx scan) := by
  intro count region found htext h
  obtain ⟨new, hnew, htraced⟩ := scriptWalk_traced
    (s := ⟨settings, jsx, scan, region.lead⟩) hscan region.chars ⟨[.code 0 []], count⟩ region.start
    [] 0 htext (.inr fun f hf => ⟨0, [], List.mem_singleton.1 hf⟩) h
  have hfound : found.map Site.invocation = new := by simpa [Frame.invocations] using hnew
  rw [hfound]
  exact htraced.mono (Nat.le_add_right _ _) (Nat.le_refl _)

/-- The scan of a region of code finds real invocations of that region, at every depth of attribute
expressions; without tags they are calls. -/
theorem scanScript_traces (settings : ScanSettings) (text : List Char) :
    ∀ (levels : Nat) (jsx : Bool),
      (scanScript settings levels jsx).Traces settings.marker jsx text
  | 0, _ => scanRegion_traces InnerScan.traces_nothing
  | levels + 1, _ => scanRegion_traces (scanScript_traces settings text levels true)

end ComponentAudit
