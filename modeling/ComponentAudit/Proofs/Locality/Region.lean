import ComponentAudit.Proofs.Extent.Scan
import ComponentAudit.Proofs.Limit.CutOff
import ComponentAudit.Proofs.Locality.Shift

/-!
# The scan of a region is local

The scan by bytes gets the whole text and two offsets, and looks back and ahead in many places. That
it never takes anything from outside of the region is a statement about its result: it is the one
for the text of the region alone, with the places moved on (`scanScript_span`). Only the byte
before the region counts, when it is a `.`.

The scan by characters gets the region alone, so this is read off the comparison of the two and the
relocation of regions. What the comparison leaves is arithmetic: in a region, offsets of the text
are those of the region moved on, up to its end (`Span.offset_add`), and no site ends beyond it.

What was recorded before the region matters only for the limit on sites, and with fewer sites before
it the scan goes at least as far (`scanScript_cutsOff`).
-/

namespace ComponentAudit.Offset

variable {text s : List Char} {n e : Nat}

/-! ### Regions by bytes -/

theorem exists_precedes (h : Span text n e s) : ∃ lead, Precedes text n lead := by
  obtain ⟨pre, post, rfl, rfl, rfl⟩ := h
  rcases List.eq_nil_or_concat pre with rfl | ⟨before, d, rfl⟩
  · exact ⟨none, rfl⟩
  · refine ⟨some d, before.length, by simp, before, s ++ post, by simp, rfl, by simp⟩

/-- The character before a region is no `.` when the byte before it is none. -/
theorem Precedes.ne_dot {lead : Option Char} (h : Precedes text n lead)
    (hdot : offset text n = 0 ∨ byteAt text (offset text n - 1) ≠ .ok '.') :
    lead ≠ some '.' := by
  rintro rfl
  obtain ⟨m, rfl, hspan⟩ := h
  rcases hdot with hzero | hne
  · exact absurd hzero (Nat.ne_of_gt (Nat.lt_of_le_of_lt (Nat.zero_le _) (offset_lt_succ text m)))
  · exact hne (by rw [hspan.byteAt_trail, trail_of_lt (by decide)])

/-- In a region, offsets of the text are those of the region moved on. -/
theorem Span.offset_add (h : Span text n e s) {k : Nat} (hk : k ≤ s.length) :
    offset text (k + n) = offset s k + offset text n := by
  have hown := ((Span.whole s).take hk).offset_stop
  rw [Nat.zero_add, offset_zero, Nat.zero_add] at hown
  rw [Nat.add_comm k n, (h.take hk).offset_stop, hown, Nat.add_comm]

/-- Places within a part of a text are recorded in the text at offsets moved by that of the part. -/
theorem recorded_shift (h : Span text n e s) {sites : List Site}
    (hsites : ∀ x ∈ sites, x.start ≤ x.stop ∧ x.stop ≤ s.length) :
    recorded text (sites.map (·.shift n)) = (recorded s sites).map (·.shift (offset text n)) := by
  rw [recorded, recorded, List.map_map, List.map_reverse, List.map_map]
  refine congrArg List.reverse (List.map_congr_left fun x hx => ?_)
  obtain ⟨hle, hstop⟩ := hsites x hx
  simp only [Function.comp_apply, inBytes, Site.shift, h.offset_add hstop,
    h.offset_add (Nat.le_trans hle hstop)]

/-! ### Locality -/

section Locality

variable {settings : ScanSettings} {levels : Nat} {jsx : Bool} {lead : Option Char}

/-- The sites of code on its own lie within the code. -/
theorem bounds_of_scanScript {found : List Site}
    (h : ComponentAudit.scanScript settings levels jsx 0 (Region.ofText s) = .ok found) :
    ∀ x ∈ found, x.start ≤ x.stop ∧ x.stop ≤ s.length := by
  intro x hx
  have hnested := scanScript_nests settings s levels jsx 0 (Region.ofText s) found
    (List.prefix_refl _) h
  obtain ⟨-, hle, hstop⟩ := hnested.bounds x hx
  exact ⟨hle, by simpa [Region.ofText] using hstop⟩

/-- By bytes, code on its own has the sites that it has by characters. -/
theorem scanScript_whole (settings : ScanSettings) (s : List Char) (levels : Nat) (jsx : Bool) :
    scanScript settings s levels jsx [] 0 (Text.byteSize s) =
      lift ((ComponentAudit.scanScript settings levels jsx 0 (Region.ofText s)).map
        (recorded s)) := by
  have hagrees := scanScript_agrees settings s levels jsx [] 0 s.length none s (Span.whole s) rfl
  rw [offset_zero, offset_length] at hagrees
  exact hagrees

/-- A region has the sites of its own text, moved on. -/
theorem scanScript_span (h : Span text n e s) (hlead : Precedes text n lead)
    (hdot : lead ≠ some '.') :
    scanScript settings text levels jsx [] (offset text n) (offset text e) =
      (scanScript settings s levels jsx [] 0 (Text.byteSize s)).map
        (List.map (·.shift (offset text n))) := by
  have hmoved := scanScript_relocates settings levels jsx 0 0 n none lead s (by simp) hdot
  rw [Nat.zero_add] at hmoved
  rw [scanScript_agrees settings text levels jsx [] n e lead s h hlead, scanScript_whole,
    List.length_nil, hmoved]
  cases hfound : ComponentAudit.scanScript settings levels jsx 0 (Region.ofText s) with
  | error err =>
    rw [Region.ofText] at hfound
    rw [hfound]
    rfl
  | ok found =>
    have hrecorded := recorded_shift h (bounds_of_scanScript hfound)
    rw [Region.ofText] at hfound
    rw [hfound]
    simp only [Except.map, lift_ok, List.nil_append, hrecorded]

/-- Code that is scanned in the middle of a text, with sites before it, has the sites that it has on
its own. -/
theorem exists_own_of_scanScript {count start : Nat} {chars : List Char} {found : List Site}
    (hdot : lead ≠ some '.')
    (h : ComponentAudit.scanScript settings levels jsx count ⟨start, lead, chars⟩ = .ok found) :
    ∃ own, ComponentAudit.scanScript settings levels jsx 0 (Region.ofText chars) = .ok own ∧
      found = own.map (·.shift start) := by
  have hroom : Roomier settings settings count := ⟨rfl, Nat.le_add_right _ _⟩
  have hzero := scanScript_cutsOff hroom levels jsx 0 ⟨start, lead, chars⟩ found
    (by rw [Nat.zero_add]; exact h)
  have hmoved := scanScript_relocates settings levels jsx 0 0 start none lead chars (by simp) hdot
  rw [Nat.zero_add, hzero] at hmoved
  cases hown : ComponentAudit.scanScript settings levels jsx 0 (Region.ofText chars) with
  | error err =>
    rw [Region.ofText] at hown
    rw [hown] at hmoved
    cases hmoved
  | ok own =>
    rw [Region.ofText] at hown
    rw [hown] at hmoved
    exact ⟨own, rfl, Except.ok.inj hmoved⟩

/-- A region adds the sites of its own text, moved on, to whatever was recorded before. -/
theorem scanScript_span_table (h : Span text n e s) (hlead : Precedes text n lead)
    (hdot : lead ≠ some '.') {table table' : List Site}
    (hscan : scanScript settings text levels jsx table (offset text n) (offset text e) =
      .ok table') :
    ∃ own, scanScript settings s levels jsx [] 0 (Text.byteSize s) = .ok own ∧
      table' = table ++ own.map (·.shift (offset text n)) := by
  rw [scanScript_agrees settings text levels jsx table n e lead s h hlead] at hscan
  cases hfound : ComponentAudit.scanScript settings levels jsx table.length ⟨n, lead, s⟩ with
  | error err =>
    rw [hfound] at hscan
    cases hscan
  | ok found =>
    rw [hfound] at hscan
    obtain ⟨own, hown, rfl⟩ := exists_own_of_scanScript hdot hfound
    have hrecorded := recorded_shift h (bounds_of_scanScript hown)
    refine ⟨recorded s own, by rw [scanScript_whole, hown]; rfl, ?_⟩
    rw [← hrecorded]
    exact (Except.ok.inj hscan).symm

end Locality

/-! ### Code inside of something else -/

/-- The body of a `script` element has the sites of a file of its own. -/
theorem exists_own_of_tagStep {options : ExtractOptions} {st st' : MarkupState} {place skip : Nat}
    {tag : ComponentAudit.Tag} (hopen : tag.selfClosing = false)
    (hname : tag.name.map Text.lowerAscii = "script".toList)
    (h : tagStep (ComponentAudit.scanScript ⟨options.marker.toList, options.maxSites⟩
      options.maxDepth) st place text tag = .ok (skip, st')) :
    ∃ own, ComponentAudit.scanText options
        (.script (hasTagLang false (text.take (tag.stop - place))))
        ((text.drop (tag.stop - place)).take
          (lengthBefore "</script".toList (text.drop (tag.stop - place)))) = .ok own ∧
      st' = (st.record (tag.sites place)).record (own.map (·.shift tag.stop)) := by
  have hvoid : (tag.selfClosing || voidElements.contains (tag.name.map Text.lowerAscii)) =
      false := by
    rw [hopen, hname]
    decide
  rw [tagStep] at h
  dsimp only at h
  rw [hvoid, if_neg Bool.false_ne_true, if_pos hname] at h
  split at h
  · cases h
  next found hfound =>
  cases h
  obtain ⟨own, hown, rfl⟩ := exists_own_of_scanScript (by decide) hfound
  exact ⟨own, hown, rfl⟩

/-- The expression of an attribute has the sites of a file of its own, with the levels that are
left. -/
theorem exists_own_of_addAttribute {options : ExtractOptions} {levels place : Nat}
    {st st' : TagState} {a : Attribute} {x : List Char} (hx : a.value = .expr x)
    (h : st.addAttribute .jsx (ComponentAudit.scanScript
      ⟨options.marker.toList, options.maxSites⟩ levels true) place a = .ok st') :
    ∃ own, ComponentAudit.scanText { options with maxDepth := levels } (.script true) x = .ok own ∧
      st'.inner = own.map (·.shift (place + a.valueStart)) ++ st.inner := by
  rw [addAttribute_eq] at h
  split at h
  · cases h
  next found hfound =>
  simp only [valueSites, hx] at hfound
  obtain ⟨own, hown, rfl⟩ := exists_own_of_scanScript (by decide) hfound
  refine ⟨own, hown, ?_⟩
  split at h
  · cases h
    rfl
  · split at h
    · cases h
    · cases h
      rfl

/-- **The scan of a region is local.** Take code between two offsets of a text that are not inside a
character, and not right after a `.`. At any depth, the scan of that region without sites before it
comes to what the scan of the code alone comes to, with starts and ends moved on by the first offset
and all else the same. When sites were recorded before, it adds these same sites. Hence the body of
a `script` element in a template, and an attribute expression in a tag, have the sites of that code
as a file of its own, whatever surrounds it. -/
theorem scanScript_local (options : ExtractOptions) (depth : Nat) (jsx : Bool)
    {text code : List Char} {i j : Nat} (hcode : slice text i j = .ok code)
    (hdot : i = 0 ∨ byteAt text (i - 1) ≠ .ok '.') :
    let settings : ScanSettings := ⟨options.marker.toList, options.maxSites⟩
    let scan := fun text => scanScript settings text (options.maxDepth - depth) jsx
    scan text [] i j =
      (scan code [] 0 (Text.byteSize code)).map (List.map fun x => x.shift i) ∧
    (∀ table table', scan text table i j = .ok table' →
      ∃ own, scan code [] 0 (Text.byteSize code) = .ok own ∧
        table' = table ++ own.map (·.shift i)) ∧
    (∀ (st st' : MarkupState) (place skip : Nat) (rest : List Char) (tag : ComponentAudit.Tag),
      tag.selfClosing = false → tag.name.map Text.lowerAscii = "script".toList →
      tagStep (ComponentAudit.scanScript settings options.maxDepth) st place rest tag =
        .ok (skip, st') →
        ∃ own, ComponentAudit.scanText options
            (.script (hasTagLang false (rest.take (tag.stop - place))))
            ((rest.drop (tag.stop - place)).take
              (lengthBefore "</script".toList (rest.drop (tag.stop - place)))) = .ok own ∧
          st' = (st.record (tag.sites place)).record (own.map (·.shift tag.stop))) ∧
    ∀ (levels place : Nat) (st st' : TagState) (a : Attribute) (x : List Char),
      a.value = .expr x →
      st.addAttribute .jsx (ComponentAudit.scanScript settings levels true) place a = .ok st' →
        ∃ own, ComponentAudit.scanText { options with maxDepth := levels } (.script true) x =
            .ok own ∧
          st'.inner = own.map (·.shift (place + a.valueStart)) ++ st.inner := by
  obtain ⟨n, e, hspan, rfl, rfl⟩ := exists_span_of_slice hcode
  obtain ⟨lead, hlead⟩ := exists_precedes hspan
  have hlead' := hlead.ne_dot hdot
  refine ⟨scanScript_span hspan hlead hlead', fun table table' hscan => ?_, ?_, ?_⟩
  · exact scanScript_span_table hspan hlead hlead' hscan
  · intro st st' place skip rest tag hopen hname h
    exact exists_own_of_tagStep hopen hname h
  · intro levels place st st' a x hx h
    exact exists_own_of_addAttribute hx h

/-- A call between braces, after a character of two bytes. -/
theorem scanScript_local_braced :
    let text := "é\x7bh('va-link')\x7d".toList
    slice text 3 15 = .ok "h('va-link')".toList ∧ byteAt text 2 ≠ .ok '.' ∧
      scanScript ⟨"va-".toList, 10000⟩ text 8 true [] 3 15 =
        .ok [⟨"va-link", "va-link", 3, 15, {}, false⟩] := by
  have hcode : slice "é\x7bh('va-link')\x7d".toList 3 15 = .ok "h('va-link')".toList := by
    decide +kernel
  have hdot : byteAt "é\x7bh('va-link')\x7d".toList 2 ≠ .ok '.' := by decide +kernel
  have hown : ComponentAudit.scanScript ⟨"va-".toList, 10000⟩ 8 true 0
      (Region.ofText "h('va-link')".toList) = .ok [⟨"va-link", "va-link", 0, 12, {}, false⟩] := by
    decide +kernel
  have hscan : scanScript ⟨"va-".toList, 10000⟩ "h('va-link')".toList 8 true [] 0
      (Text.byteSize "h('va-link')".toList) = .ok [⟨"va-link", "va-link", 0, 12, {}, false⟩] := by
    rw [scanScript_whole, hown]
    decide +kernel
  obtain ⟨hlocal, -⟩ := scanScript_local {} 0 true hcode (.inr hdot)
  exact ⟨hcode, hdot, hlocal.trans (congrArg (Except.map (List.map fun x => x.shift 3)) hscan)⟩

end ComponentAudit.Offset
