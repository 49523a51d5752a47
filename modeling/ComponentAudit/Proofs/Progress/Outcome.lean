import ComponentAudit.Proofs.Invocation.Failure
import ComponentAudit.Proofs.Locality.Region
import ComponentAudit.Proofs.Offset.Extraction
import ComponentAudit.Proofs.Progress.Scan

/-!
# The ends of a scan

What a scan can come to, when nothing but its own progress ends it. The scan by characters gives up
for two reasons only: there are too many sites, or the quotes of a literal cannot be taken off
(`ScanError`). The scan by bytes agrees with it in every region that can be cut out of the text, and
so it ends with a table or for one of these two reasons (`Ends`).

`scans_end_by_progress` puts this together with the progress of the loops and with the regions of
the nested scans. That a scan calls another one on strictly smaller regions only is expressed by
what is known of the other one: it is any scan that does not stall there, so a call elsewhere could
not be answered for.
-/

namespace ComponentAudit

/-! ### Errors of the scan by characters -/

/-- The errors that a scan gives up with. -/
def ScanError (maxSites : Nat) (e : ExtractError) : Prop :=
  e = .tooManySites maxSites ∨ e = .splitCharacter

section Readers

variable {settings : ScanSettings} {flavor : Flavor} {scan : InnerScan} {e : ExtractError}
  {count start : Nat} {s : List Char}

/-- A new site fails for one reason only. -/
theorem newSite_eq_error {tag name : List Char}
    (h : newSite settings count tag name start = .error e) :
    e = .tooManySites settings.maxSites := by
  rw [newSite] at h
  split at h
  · cases h
    rfl
  · cases h

/-- So does the site of a tag. -/
theorem tagSite_eq_error {name : List Char} (h : tagSite settings count name start = .error e) :
    e = .tooManySites settings.maxSites := by
  rw [tagSite] at h
  split at h
  · cases h
  · next canonical _ =>
    cases hnew : newSite settings count name canonical start with
    | error e' =>
      rw [hnew] at h
      cases h
      exact newSite_eq_error hnew
    | ok site =>
      rw [hnew] at h
      cases h

variable (hscan : scan.FailsOn e fun _ => ScanError settings.maxSites e)
include hscan

private theorem TagState.scanError_of_addAttribute {st : TagState} {place : Nat} {a : Attribute}
    (h : st.addAttribute flavor scan place a = .error e) : ScanError settings.maxSites e := by
  rw [Offset.addAttribute_eq] at h
  split at h
  · next hvalue =>
    cases h
    unfold Offset.valueSites at hvalue
    split at hvalue
    · exact hscan _ _ hvalue
    · cases hvalue
  split at h
  · cases h
  split at h
  · cases h
    exact .inr rfl
  · cases h

private theorem scanError_of_tagWalk {name : List Char} {st : TagState} {place skip : Nat}
    (h : tagWalk flavor scan name st place skip s = .error e) : ScanError settings.maxSites e := by
  induction s generalizing st place skip with
  | nil => cases skip <;> cases h
  | cons c rest ih =>
    cases skip with
    | succ skip => exact ih h
    | zero =>
      rw [tagWalk] at h
      split at h
      · cases h
      · cases h
      · exact ih h
      · exact ih h
      · split at h
        · next hadd =>
          cases h
          exact TagState.scanError_of_addAttribute hscan hadd
        · exact ih h

/-- A start tag fails for no other reason than its sites or a literal in its attributes. -/
theorem scanError_of_readTag (h : readTag settings flavor scan count start s = .error e) :
    ScanError settings.maxSites e := by
  rcases readTag_eq_error h with hsite | ⟨site, -, hwalk⟩
  · exact .inl (tagSite_eq_error hsite)
  · exact scanError_of_tagWalk hscan hwalk

omit hscan in
/-- Nor does a call. -/
theorem scanError_of_callSite {place : Nat}
    (h : callSite settings count start place s = .error e) : ScanError settings.maxSites e := by
  rw [callSite] at h
  split at h
  · dsimp only at h
    split at h
    · cases h
    split at h
    · cases h
    split at h
    · next hnew =>
      cases h
      exact .inl (newSite_eq_error hnew)
    split at h
    · cases h
    split at h
    · cases h
      exact .inr rfl
    · cases h
  · cases h

end Readers

/-- Tags and calls fail because there are too many sites, or with a literal. -/
theorem readersFailOn_scanError (settings : ScanSettings) (e : ExtractError) :
    ReadersFailOn settings e fun _ => ScanError settings.maxSites e where
  mono _ h := h
  tag hscan := fun h => scanError_of_readTag hscan h
  call h := scanError_of_callSite h

namespace Offset

variable {text : List Char}

/-! ### Ends of the scan by bytes -/

/-- The run comes to an end: with a table, because there are too many sites, or with a literal whose
quotes cannot be taken off. -/
def Ends (maxSites : Nat) (x : Checked (List Site)) : Prop :=
  (∃ table, x = .ok table) ∨ x = .error (.limit (.tooManySites maxSites)) ∨
    x = .error .splitLiteral

private theorem ends_lift_map {maxSites : Nat} {found : Found} (f : List Site → List Site)
    (h : ∀ e, found = .error e → ScanError maxSites e) :
    Ends maxSites (lift (found.map f)) := by
  cases found with
  | ok sites => exact .inl ⟨f sites, rfl⟩
  | error e =>
    rcases h e rfl with rfl | rfl
    · exact .inr (.inl rfl)
    · exact .inr (.inr rfl)

section Regions

variable {s : List Char} {lo bound : Nat} (settings : ScanSettings) (levels : Nat)
  (h : slice text lo bound = .ok s)
include h

/-- **A scan of script code ends** with a table, at the limit on sites, or inside a character. -/
theorem scanScript_ends (jsx : Bool) (table : List Site) :
    Ends settings.maxSites (scanScript settings text levels jsx table lo bound) := by
  obtain ⟨n, e, hspan, rfl, rfl⟩ := exists_span_of_slice h
  obtain ⟨lead, hlead⟩ := exists_precedes hspan
  rw [scanScript_agrees settings text levels jsx table n e lead s hspan hlead]
  exact ends_lift_map _ fun err hfail =>
    (readersFailOn_scanError settings err).scanScript levels jsx _ _ hfail

/-- **A scan of markup ends** in the same ways. -/
theorem scanMarkup_ends : Ends settings.maxSites (scanMarkup settings text levels [] lo bound) := by
  obtain ⟨n, e, hspan, rfl, rfl⟩ := exists_span_of_slice h
  have hr : MarkupRuns ⟨settings, text, scanScript settings text levels, offset text e⟩ settings
      (ComponentAudit.scanScript settings levels) e :=
    ⟨rfl, scanScript_agrees settings text levels, rfl⟩
  have hh : Holds text [] [] {} := ⟨rfl, rfl, rfl⟩
  rw [show scanMarkup settings text levels [] (offset text n) (offset text e) = _ from
    markupLoop_eq hr hh hspan]
  exact ends_lift_map _ fun err hfail =>
    (readersFailOn_scanError settings err).markupWalk
      ((readersFailOn_scanError settings err).scanScript levels) hfail

end Regions

/-! ### Turns and nested scans -/

/-- Each turn of a loop stops it or goes strictly forward, and a scan never goes beyond its region.
`nested` scans the attribute expressions in code, and `script` the code in markup. -/
structure TurnsProceed (settings : ScanSettings) (text : List Char) (jsx : Bool) (nested : Scan)
    (script : Bool → Scan) : Prop where
  code : ∀ (lo bound : Nat) (st : ModeState) (i : Nat), lo ≤ i → i < bound →
    Proceeds (scriptTurn ⟨settings, text, jsx, nested, lo, bound⟩ st i)
      (Turn.Keeps i (· ≤ bound) fun _ => True)
  markup : ∀ (bound : Nat) (st : OpenState) (i : Nat),
    Proceeds (markupTurn ⟨settings, text, script, bound⟩ st i)
      (Turn.Keeps i (· ≤ bound) fun _ => True)
  /-- Among the attributes of a tag, which ends in the region if it ends. -/
  tag : ∀ (flavor : Flavor) (site : Option Nat) (bound : Nat) (table : List Site) (j : Nat),
    Proceeds (tagTurn text nested flavor site bound table j)
      (Turn.Keeps j (· ≤ bound) fun r => ∀ x ∈ r.1, j < x.2 ∧ x.2 ≤ bound)
  /-- In search of a closing bracket. -/
  close : ∀ (lo bound : Nat) (contexts : List Script.Context) (i : Nat), i < bound →
    Proceeds (bracketTurn text lo bound contexts i)
      (Turn.Keeps i (fun _ => True) fun close? => ∀ c ∈ close?, c = i)
  /-- Along the parts of an object literal. -/
  split : ∀ (sep : Char) (bound : Nat) (st : Nat × List (List Char)) (i : Nat), i < bound →
    Proceeds (splitTurn text sep bound st i) (Turn.Keeps i (· ≤ bound) fun _ => True)
  /-- Taking off parentheses leaves a shorter expression. -/
  parens : ∀ e : List Char, wrappedIn e '(' = .ok true →
    ∃ inner, inside e = .ok inner ∧ (Text.trim inner).length < e.length

private theorem exists_inside_of_wrappedIn {e : List Char} (h : wrappedIn e '(' = .ok true) :
    ∃ inner, inside e = .ok inner ∧ (Text.trim inner).length < e.length := by
  rw [wrappedIn_eq (by decide), Except.ok.injEq, Option.isSome_iff_exists] at h
  obtain ⟨inner, hinner⟩ := h
  exact ⟨inner, inside_of_enclosed? hinner,
    Nat.lt_of_le_of_lt (Text.length_trim_le inner) (Script.length_enclosed?_lt hinner)⟩

/-- With a nested scan and a scan of script bodies that never stall, all turns go forward. -/
theorem turnsProceed (settings : ScanSettings) (text : List Char) (jsx : Bool) {nested : Scan}
    {script : Bool → Scan} (hnested : ∀ lo bound, ScanProceeds lo bound nested)
    (hscript : ∀ lo bound jsx, ScanProceeds lo bound (script jsx)) :
    TurnsProceed settings text jsx nested script where
  code lo bound st _ hlo h := scriptTurn_proceeds (hnested lo bound) st hlo h
  markup bound st i := markupTurn_proceeds st (hscript i bound) (Nat.le_refl i)
  tag flavor site bound table j :=
    tagTurn_proceeds (hnested j bound) flavor site table text (Nat.le_refl j)
  close lo _ contexts _ h := bracketTurn_proceeds text lo contexts h
  split sep _ st _ h := splitTurn_proceeds text sep st h
  parens _ := exists_inside_of_wrappedIn

/-- The scan of attribute expressions inside code at a depth: one level deeper, if that is within
the limit. -/
def nestedScan (settings : ScanSettings) (text : List Char) (maxDepth depth : Nat) : Scan :=
  if depth + 1 ≤ maxDepth then scanScript settings text (maxDepth - (depth + 1)) true
  else fun table _ _ => return table

/-- A scan with some levels left is the scan at the depth reached so far. -/
theorem scanScript_eq_nestedScan (settings : ScanSettings) (text : List Char)
    (maxDepth depth : Nat) (jsx : Bool) :
    scanScript settings text (maxDepth - depth) jsx =
      scanRegion settings text jsx (nestedScan settings text maxDepth depth) := by
  unfold nestedScan
  split
  · next h =>
    rw [show maxDepth - depth = maxDepth - (depth + 1) + 1 by omega]
    rfl
  · next h =>
    rw [show maxDepth - depth = 0 by omega]
    rfl

/-- The scan of what is nested in a region proceeds at every depth. -/
theorem nestedScan_proceeds (settings : ScanSettings) (text : List Char)
    (maxDepth depth lo bound : Nat) :
    ScanProceeds lo bound (nestedScan settings text maxDepth depth) := by
  unfold nestedScan
  split
  · exact fun table i j _ _ _ => scanScript_proceeds settings text _ true table i j
  · exact scanProceeds_nothing lo bound

/-- **Scans end by progress.** The scans by bytes are those by characters. In whatever region that
can be cut out of a text, at any depth and with any limits, those of code and of markup come to an
end, and in no region at all do they stall. Every turn of their loops stops or goes strictly forward
without leaving the region. The scan of a region of code scans attribute expressions one level
deeper, if that is within the limit, and it ends if the scan that it does this with ends in strictly
smaller regions; the same holds of the scan of markup and the scan of script bodies. -/
theorem scans_end_by_progress (options : ExtractOptions) (text : List Char) (depth : Nat)
    (jsx : Bool) :
    let settings : ScanSettings := ⟨options.marker.toList, options.maxSites⟩
    let code := scanScript settings text (options.maxDepth - depth)
    let markup := scanMarkup settings text (options.maxDepth - depth)
    let nested := nestedScan settings text options.maxDepth depth
    (Agrees text (code jsx)
        (ComponentAudit.scanScript settings (options.maxDepth - depth) jsx) ∧
      ∀ dialect, scanText options dialect text =
        lift ((ComponentAudit.scanText options dialect text).map (recorded text))) ∧
    (∀ table lo bound s, slice text lo bound = .ok s →
      Ends options.maxSites (code jsx table lo bound) ∧
        Ends options.maxSites (markup [] lo bound)) ∧
    (∀ table lo bound, code jsx table lo bound ≠ .error .stalled ∧
      markup table lo bound ≠ .error .stalled) ∧
    TurnsProceed settings text jsx nested code ∧
    code jsx = scanRegion settings text jsx nested ∧
    (∀ scan table lo bound,
      (∀ table' i j, lo < i → i ≤ j → j ≤ bound → scan table' i j ≠ .error .stalled) →
        scanRegion settings text jsx scan table lo bound ≠ .error .stalled) ∧
    ∀ script st lo bound,
      (∀ jsx table i j, lo < i → i ≤ j → j ≤ bound → script jsx table i j ≠ .error .stalled) →
        loop bound (markupTurn ⟨settings, text, script, bound⟩) (fun st _ => st) st lo ≠
          .error .stalled := by
  intro settings code markup nested
  have hcode : ∀ lo bound jsx, ScanProceeds lo bound (code jsx) :=
    fun _ _ jsx table i j _ _ _ => scanScript_proceeds settings text _ jsx table i j
  have hproceeds : ∀ {scan : Scan} {lo bound : Nat},
      (∀ table i j, lo < i → i ≤ j → j ≤ bound → scan table i j ≠ .error .stalled) →
        ScanProceeds lo bound scan := fun h table i j hlo hle hbound =>
    Proceeds.of_ne_stalled (h table i j hlo hle hbound)
  refine ⟨⟨?_, fun dialect => scanText_eq options dialect text⟩, fun table lo bound s h => ⟨?_, ?_⟩,
    fun table lo bound => ⟨?_, ?_⟩, ?_, ?_, ?_, ?_⟩
  · exact scanScript_agrees settings text _ jsx
  · exact scanScript_ends settings _ h jsx table
  · exact scanMarkup_ends settings _ h
  · exact (scanScript_proceeds settings text _ jsx table lo bound).ne_stalled
  · exact (scanMarkup_proceeds settings text _ table lo bound).ne_stalled
  · exact turnsProceed settings text jsx
      (nestedScan_proceeds settings text options.maxDepth depth) hcode
  · exact scanScript_eq_nestedScan settings text options.maxDepth depth jsx
  · intro scan table lo bound h
    exact (scanRegion_proceeds settings text jsx (hproceeds h) table).ne_stalled
  · intro script st lo bound h
    exact (markupLoop_proceeds (r := ⟨settings, text, script, bound⟩)
      (fun jsx => hproceeds (h jsx)) st).ne_stalled

/-- The tag comes to no end. The call in its attribute has been found by then; it is found again as
the scan goes on after the `<`. -/
theorem scans_end_by_progress_broken_tag :
    let text := "<a b=\x7bh('va-link')\x7d ;".toList
    let settings : ScanSettings := ⟨"va-".toList, 10000⟩
    slice text 0 21 = .ok text ∧ Ends 10000 (scanScript settings text 8 true [] 0 21) ∧
      scanScript settings text 8 true [] 0 21 = .ok [⟨"va-link", "va-link", 6, 18, {}, false⟩] ∧
      Proceeds (scriptTurn ⟨settings, text, true, nestedScan settings text 8 0, 0, 21⟩
        ([.code 0], []) 0) (Turn.Keeps 0 (· ≤ 21) fun _ => True) ∧
      ∃ inner, inside "(('x'))".toList = .ok inner ∧ (Text.trim inner).length < 7 := by
  have hslice : slice "<a b=\x7bh('va-link')\x7d ;".toList 0 21 =
      .ok "<a b=\x7bh('va-link')\x7d ;".toList := by decide +kernel
  have hscan : ComponentAudit.scanScript ⟨"va-".toList, 10000⟩ 8 true 0
      (Region.ofText "<a b=\x7bh('va-link')\x7d ;".toList) =
        .ok [⟨"va-link", "va-link", 6, 18, {}, false⟩] := by decide +kernel
  have hfound : scanScript ⟨"va-".toList, 10000⟩ "<a b=\x7bh('va-link')\x7d ;".toList 8 true [] 0
      (Text.byteSize "<a b=\x7bh('va-link')\x7d ;".toList) =
        .ok [⟨"va-link", "va-link", 6, 18, {}, false⟩] := by
    rw [scanScript_whole, hscan]
    decide +kernel
  have hwrapped : wrappedIn "(('x'))".toList '(' = .ok true := by
    rw [wrappedIn_eq (by decide)]
    decide +kernel
  obtain ⟨-, hends, -, hturns, -⟩ :=
    scans_end_by_progress {} "<a b=\x7bh('va-link')\x7d ;".toList 0 true
  exact ⟨hslice, (hends [] 0 21 _ hslice).1, hfound,
    hturns.code 0 21 _ 0 (by decide) (by decide), hturns.parens _ hwrapped⟩

end Offset

end ComponentAudit
