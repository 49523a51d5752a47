import ComponentAudit.Extraction
import ComponentAudit.Proofs.Invocation.Script
import ComponentAudit.Proofs.Text.Search

/-!
# Invocations in markup and in whole texts

As for code, the open elements of a scan of markup and the sites outside of them are one list of
invocations, latest first, and `markupStep_traced` says that a step puts real invocations of its
stretch in front. A `script` element contributes what the scan of its code finds.

`scanText_traced` sums up both dialects: the sites of a text are real invocations, in the order of
their places, and in script code without tags they are calls. In particular a text that does not
mention the marker has no sites, so it makes no difference that such a text is not scanned, nor that
the sites are sorted afterwards (`findSites_eq_reverse`).
-/

namespace ComponentAudit

/-! ### Open elements as one list -/

/-- The invocations of an open element, latest first. -/
def OpenElement.invocations (e : OpenElement) : List Invocation :=
  (e.found ++ e.site.toList).map Site.invocation

/-- The invocations of a scan of markup, latest first. -/
def MarkupState.invocations (st : MarkupState) : List Invocation :=
  st.elements.flatMap OpenElement.invocations ++ st.found.map Site.invocation

/-- The invocations of an element do not change when it closes. -/
theorem OpenElement.map_invocation_close (e : OpenElement) (stop : Nat) :
    (e.close stop).map Site.invocation = e.invocations := by
  simp [OpenElement.close, OpenElement.invocations]

/-- Those of a whole state do not change when the markup ends. -/
theorem MarkupState.map_invocation_finish (st : MarkupState) (stop : Nat) :
    (st.finish stop).map Site.invocation = st.invocations := by
  simp [MarkupState.finish, MarkupState.invocations, List.map_flatMap,
    OpenElement.map_invocation_close]

/-- Sites that are put into the innermost open element are the latest invocations. -/
theorem MarkupState.invocations_place (st : MarkupState) (sites : List Site) :
    (st.place sites).invocations = sites.map Site.invocation ++ st.invocations := by
  unfold MarkupState.place
  split
  · next helements => simp [MarkupState.invocations, helements]
  · next e elements helements =>
    simp [MarkupState.invocations, OpenElement.invocations, helements]

/-- So are new ones. -/
theorem MarkupState.invocations_record (st : MarkupState) (sites : List Site) :
    (st.record sites).invocations = sites.map Site.invocation ++ st.invocations :=
  st.invocations_place sites

/-- Closing elements loses no invocation and adds none. -/
theorem invocations_closeNamed? {name : List Char} {stop : Nat}
    {elements elements' : List OpenElement} {sites : List Site}
    (h : closeNamed? name stop elements = some (sites, elements')) :
    sites.map Site.invocation ++ elements'.flatMap OpenElement.invocations =
      elements.flatMap OpenElement.invocations := by
  induction elements generalizing sites with
  | nil => cases h
  | cons e elements ih =>
    rw [closeNamed?] at h
    split at h
    · cases h
      rw [OpenElement.map_invocation_close, List.flatMap_cons]
    · obtain ⟨⟨inner, rest⟩, hinner, heq⟩ := Option.map_eq_some_iff.1 h
      simp only [Prod.mk.injEq] at heq
      obtain ⟨rfl, rfl⟩ := heq
      rw [List.map_append, List.append_assoc, ih hinner, OpenElement.map_invocation_close,
        List.flatMap_cons]

/-! ### Steps -/

section Step

variable {settings : ScanSettings} {script : Bool → InnerScan} {st st' : MarkupState}
  {text rest : List Char} {place skip : Nat}

/-- What a step may do: put real invocations of the stretch it passes over in front of the
others. -/
def MarkupTraced (marker text : List Char) (place skip : Nat) (rest : List Char)
    (st st' : MarkupState) : Prop :=
  ∃ new, st'.invocations = new ++ st.invocations ∧
    Traced marker true text place (place + 1 + min skip rest.length) new

/-- A step that finds nothing. -/
theorem MarkupTraced.of_eq {marker : List Char} (h : st'.invocations = st.invocations) :
    MarkupTraced marker text place skip rest st st' :=
  ⟨[], h, Traced.nil⟩

private theorem invocations_closingStep (h : closingStep st place rest = (skip, st')) :
    st'.invocations = st.invocations := by
  simp only [closingStep] at h
  split at h
  · next sites elements hclose =>
    cases h
    rw [MarkupState.invocations_place, MarkupState.invocations, MarkupState.invocations,
      ← List.append_assoc, invocations_closeNamed? hclose]
  · cases h
    rfl

/-- The code of a `script` element is a stretch of its own, after the tag. -/
theorem script_traced {jsx : Bool} {marker body : List Char} {found : List Site}
    {count stop length : Nat} {lead : Option Char}
    (hscript : ∀ jsx, (script jsx).Traces marker jsx text) (hbody : body <+: text.drop stop)
    (h : script jsx count ⟨stop, lead, body.take length⟩ = .ok found) :
    Traced marker true text stop (stop + min length body.length) (found.map Site.invocation) := by
  have hregion : body.take length <+: text.drop stop := (List.take_prefix _ _).trans hbody
  simpa only [List.length_take] using (hscript jsx count _ found hregion h).of_tags

/-- What a step behind a start tag adds is traced: the tag itself and what is in it. -/
theorem tagStep_traced {marker : List Char} {tag : Tag}
    (hscript : ∀ jsx, (script jsx).Traces marker jsx text)
    (htext : '<' :: rest <+: text.drop place)
    (htag : Traced marker true text place tag.stop tag.invocations) (hlt : place < tag.stop)
    (hle : tag.stop ≤ place + 1 + rest.length)
    (h : tagStep script st place ('<' :: rest) tag = .ok (skip, st')) :
    MarkupTraced marker text place skip rest st st' := by
  simp only [tagStep] at h
  split at h
  · cases h
    refine ⟨tag.invocations, ?_, htag.mono (Nat.le_refl _) (by omega)⟩
    rw [MarkupState.invocations_record, Tag.map_invocation_sites]
  split at h
  · split at h
    · cases h
    · next found hfound =>
      cases h
      have hbody : ('<' :: rest).drop (tag.stop - place) <+: text.drop tag.stop := by
        have := prefix_drop_add htext (tag.stop - place)
        rwa [Nat.add_sub_cancel' (Nat.le_of_lt hlt)] at this
      refine ⟨found.map Site.invocation ++ tag.invocations, ?_, ?_⟩
      · rw [MarkupState.invocations_record, MarkupState.invocations_record,
          Tag.map_invocation_sites, List.append_assoc]
      · refine ((script_traced hscript hbody hfound).append htag (Nat.le_of_lt hlt)
          (Nat.le_add_right _ _)).mono (Nat.le_refl _) ?_
        simp only [List.length_drop, List.length_cons]
        omega
  split at h
  · cases h
    refine ⟨tag.invocations, ?_, htag.mono (Nat.le_refl _) (by omega)⟩
    rw [MarkupState.invocations_record, Tag.map_invocation_sites]
  · cases h
    exact ⟨tag.invocations, by simp [MarkupState.invocations, OpenElement.invocations,
      Tag.invocations], htag.mono (Nat.le_refl _) (by omega)⟩

/-- What a step of the scan of markup can do to the invocations. -/
theorem markupStep_traced (hscript : ∀ jsx, (script jsx).Traces settings.marker jsx text)
    (htext : '<' :: rest <+: text.drop place)
    (h : markupStep settings script st place rest = .ok (skip, st')) :
    MarkupTraced settings.marker text place skip rest st st' := by
  unfold markupStep at h
  split at h
  · split at h <;> cases h <;> exact .of_eq rfl
  · exact .of_eq (invocations_closingStep (Except.ok.inj h))
  · cases h
    exact .of_eq rfl
  · cases h
    exact .of_eq rfl
  · split at h
    · cases h
    · cases h
      exact .of_eq rfl
    · next tag hread =>
      obtain ⟨htag, hlt, hle⟩ := readTag_traced InnerScan.traces_nothing htext hread
      exact tagStep_traced hscript htext htag hlt hle h

end Step

/-! ### Walk -/

/-- **A walk through markup** adds invocations that really stand in the text it passes over. -/
theorem markupWalk_traced {settings : ScanSettings} {script : Bool → InnerScan} {text : List Char}
    (hscript : ∀ jsx, (script jsx).Traces settings.marker jsx text) {found : List Site}
    (chars : List Char) :
    ∀ (st : MarkupState) (place skip : Nat), chars <+: text.drop place →
      markupWalk settings script st place skip chars = .ok found →
        ∃ new, found.map Site.invocation = new ++ st.invocations ∧
          Traced settings.marker true text (place + min skip chars.length)
            (place + chars.length) new := by
  induction chars with
  | nil =>
    intro st place skip _ h
    cases skip <;> cases h <;> exact ⟨[], st.map_invocation_finish _, Traced.nil⟩
  | cons c rest ih =>
    intro st place skip htext h
    have hrest : rest <+: text.drop (place + 1) := prefix_drop_add htext 1
    cases skip with
    | succ n =>
      obtain ⟨new, hnew, htraced⟩ := ih st (place + 1) n hrest h
      refine ⟨new, hnew, htraced.mono ?_ ?_⟩ <;> simp only [List.length_cons] <;> omega
    | zero =>
      rw [markupWalk] at h
      split at h
      · next hc =>
        subst hc
        split at h
        · cases h
        · next skip st' hstep =>
          obtain ⟨new, hnew, htraced⟩ := markupStep_traced hscript htext hstep
          obtain ⟨later, hlater, htraced'⟩ := ih st' (place + 1) skip hrest h
          refine ⟨later ++ new, by rw [hlater, hnew, List.append_assoc], ?_⟩
          refine (htraced'.append htraced (by omega) (by omega)).mono ?_ ?_ <;>
            simp only [List.length_cons] <;> omega
      · obtain ⟨new, hnew, htraced⟩ := ih st (place + 1) 0 hrest h
        refine ⟨new, hnew, htraced.mono ?_ ?_⟩ <;> simp only [List.length_cons] <;> omega

/-! ### Whole texts -/

/-- Whether start tags count in a dialect. -/
def Dialect.hasTags : Dialect → Bool
  | .script jsx => jsx
  | .template => true

/-- The sites of a text are real invocations in the order of their places. -/
theorem scanText_traced {options : ExtractOptions} {dialect : Dialect} {text : List Char}
    {found : List Site} (h : scanText options dialect text = .ok found) :
    Traced options.marker.toList dialect.hasTags text 0 text.length
      (found.map Site.invocation) := by
  cases dialect with
  | script jsx =>
    have htraced := scanScript_traces ⟨options.marker.toList, options.maxSites⟩ text
      options.maxDepth jsx 0 (Region.ofText text) found (List.prefix_refl _) h
    simpa [Region.ofText, Dialect.hasTags] using htraced
  | template =>
    obtain ⟨new, hnew, htraced⟩ := markupWalk_traced
      (scanScript_traces ⟨options.marker.toList, options.maxSites⟩ text options.maxDepth)
      text {} 0 0 (List.prefix_refl _) h
    have hfound : found.map Site.invocation = new := by simpa [MarkupState.invocations] using hnew
    simpa [hfound, Dialect.hasTags] using htraced

/-! ### Mentions of the marker -/

/-- A component name begins with the marker in one of its two spellings. -/
theorem prefix_of_canonicalName? {marker raw name : List Char}
    (h : canonicalName? marker raw = some name) :
    marker <+: raw ∨ pascalMarker marker <+: raw := by
  unfold canonicalName? at h
  split at h
  · next rest hstrip => exact .inl ⟨rest, (Text.stripStart?_eq_some_iff.1 hstrip).symm⟩
  · split at h
    · next rest hstrip => exact .inr ⟨rest, (Text.stripStart?_eq_some_iff.1 hstrip).symm⟩
    · cases h

/-- The tag of an invocation is a part of the text that it begins. -/
theorem BeginsInvocation.isInfix {tags : Bool} {tag s : List Char}
    (h : BeginsInvocation tags tag s) : tag <:+: s := by
  rcases h with ⟨_, h⟩ | ⟨factory, _, gap, gap', quote, _, _, _, h⟩
  · exact (List.suffix_cons '<' tag).isInfix.trans h.isInfix
  · exact (List.suffix_append _ tag).isInfix.trans h.isInfix

/-- A text with an invocation mentions the marker. -/
theorem Invocation.Real.mentionsMarker {marker text : List Char} {tags : Bool} {i : Invocation}
    (h : i.Real marker tags text) : mentionsMarker marker text = true := by
  have htag : i.tag.toList <:+: text := h.begins.isInfix.trans (List.drop_suffix _ _).isInfix
  rw [ComponentAudit.mentionsMarker, Bool.or_eq_true, Text.contains_iff_isInfix,
    Text.contains_iff_isInfix]
  exact (prefix_of_canonicalName? h.canonical).imp (fun h => h.isInfix.trans htag)
    fun h => h.isInfix.trans htag

/-- A text that does not mention the marker has no sites. -/
theorem Traced.eq_nil {marker text : List Char} {tags : Bool} {lo hi : Nat} {is : List Invocation}
    (h : Traced marker tags text lo hi is) (hmention : mentionsMarker marker text = false) :
    is = [] := by
  refine List.eq_nil_iff_forall_not_mem.2 fun i hi => ?_
  rw [(h.real i hi).mentionsMarker] at hmention
  cases hmention

/-! ### Sites in order -/

/-- The scan leaves the sites in order, so that sorting them changes nothing. -/
theorem mergeSort_reverse_of_traced {marker text : List Char} {tags : Bool} {lo hi : Nat}
    {found : List Site} (h : Traced marker tags text lo hi (found.map Site.invocation)) :
    found.reverse.mergeSort (fun a b => a.start ≤ b.start) = found.reverse := by
  refine List.mergeSort_of_pairwise (List.pairwise_reverse.2 ?_)
  refine (List.pairwise_map.1 h.backwards).imp fun hlt => ?_
  exact decide_eq_true (Nat.le_of_lt hlt)

/-- Within the bounds, the sites of a text are those that the scan finds, whether the text mentions
the marker or not. -/
theorem findSites_eq_reverse {options : ExtractOptions} {dialect : Dialect} {text : List Char}
    {found : List Site} (hbytes : Text.byteSize text ≤ options.maxBytes) (hnul : '\x00' ∉ text)
    (h : scanText options dialect text = .ok found) :
    findSites options dialect text = .ok found.reverse := by
  have htraced := scanText_traced h
  rw [findSites, if_neg (Nat.not_lt.2 hbytes), if_neg (by simpa using hnul), h]
  split
  · next hmention =>
    have hfound := List.map_eq_nil_iff.1 (htraced.eq_nil (by simpa using hmention))
    rw [hfound]
    rfl
  · exact congrArg Except.ok (mergeSort_reverse_of_traced htraced)

/-- The sites of a text are real invocations in the order of their places. -/
theorem findSites_traced {options : ExtractOptions} {dialect : Dialect} {text : List Char}
    {sites : List Site} (h : findSites options dialect text = .ok sites) :
    Traced options.marker.toList dialect.hasTags text 0 text.length
      (sites.reverse.map Site.invocation) := by
  rw [findSites] at h
  split at h
  · cases h
  split at h
  · cases h
  split at h
  · cases h
    exact Traced.nil
  · cases hscan : scanText options dialect text with
    | error e =>
      rw [hscan] at h
      cases h
    | ok found =>
      rw [hscan] at h
      have htraced := scanText_traced hscan
      have hsites : found.reverse = sites := by
        rw [← mergeSort_reverse_of_traced htraced]
        exact Except.ok.inj h
      rwa [← hsites, List.reverse_reverse]

end ComponentAudit
