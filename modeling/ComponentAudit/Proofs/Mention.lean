import ComponentAudit.Proofs.Invocation.Failure
import ComponentAudit.Proofs.Invocation.Markup
import ComponentAudit.Proofs.Offset.Extraction

/-!
# Texts without the marker

A text that mentions the marker in neither spelling is not scanned, and nothing is lost by that. The
scan would come to an end and find no site, since a site is a real invocation, and the element that
it invokes begins with the marker.

That the scan would come to an end has to be shown apart, because it may stop at a site that is one
too many, or at a literal that it cannot read. But a tag or a call is only read that far when it
names a component: `readersFailOn_mentions` says that whatever the error, the marker stands in the
text. A tag of another name has no site to which its attributes would matter
(`mentions_of_tagWalk`), and fails at most with what stands in its attribute expressions.
-/

namespace ComponentAudit

/-- The marker stands in the text in one of its two spellings. -/
def Mentions (marker s : List Char) : Prop := marker <:+: s ∨ pascalMarker marker <:+: s

section Mentions

variable {marker s t : List Char}

/-- A text that contains a mention mentions the marker. -/
theorem Mentions.mono (h : Mentions marker s) (hst : s <:+: t) : Mentions marker t :=
  h.imp (·.trans hst) (·.trans hst)

/-- The check of a text finds the mentions there are. -/
theorem mentionsMarker_iff : mentionsMarker marker s = true ↔ Mentions marker s := by
  rw [mentionsMarker, Bool.or_eq_true, Text.contains_iff_isInfix, Text.contains_iff_isInfix,
    Mentions]

/-- A component name mentions the marker. -/
theorem mentions_of_canonicalName? {name : List Char} (h : canonicalName? marker s = some name) :
    Mentions marker s :=
  (prefix_of_canonicalName? h).imp List.IsPrefix.isInfix List.IsPrefix.isInfix

end Mentions

/-! ### Tags -/

section Tag

variable {marker : List Char} {e : ExtractError} {flavor : Flavor} {scan : InnerScan}

private theorem TagState.site_of_addAttribute {st st' : TagState} (hsite : st.site = none)
    {place : Nat} {a : Attribute} (h : st.addAttribute flavor scan place a = .ok st') :
    st'.site = none := by
  obtain ⟨-, -, -, hsame | ⟨site, -, hsome, -⟩⟩ := TagState.addAttribute_eq_ok h
  · exact hsame.trans hsite
  · rw [hsite] at hsome
    cases hsome

/-- The attributes of a tag without a site fail only where one of their expressions mentions the
marker. -/
theorem mentions_of_tagWalk (hscan : scan.FailsOn e (Mentions marker)) {name : List Char}
    {st : TagState} (hsite : st.site = none) {place skip : Nat} {s : List Char}
    (h : tagWalk flavor scan name st place skip s = .error e) : Mentions marker s := by
  induction s generalizing st place skip with
  | nil => cases skip <;> cases h
  | cons c rest ih =>
    have hrest : ∀ {st skip}, st.site = none →
        tagWalk flavor scan name st (place + 1) skip rest = .error e →
          Mentions marker (c :: rest) := fun hsite h =>
      (ih hsite h).mono (List.suffix_cons c rest).isInfix
    cases skip with
    | succ skip => exact hrest hsite h
    | zero =>
      rw [tagWalk] at h
      split at h
      · cases h
      · cases h
      · exact hrest hsite h
      · exact hrest (by rw [hsite]; rfl) h
      · next a hpart =>
        split at h
        · next hadd =>
          cases h
          rcases TagState.addAttribute_eq_error hadd with ⟨expr, hvalue, hfail⟩ | ⟨site, hsome, -⟩
          · have hexpr := (readAttribute?_expr (readAttribute?_of_tagPart hpart) hvalue).1
            exact (hscan _ _ hfail).mono (hexpr.isInfix.trans (List.drop_suffix _ _).isInfix)
          · rw [hsite] at hsome
            cases hsome
        · next st' hadd => exact hrest (TagState.site_of_addAttribute hsite hadd) h

/-- A tag whose reading fails mentions the marker. -/
theorem mentions_of_readTag {settings : ScanSettings}
    (hscan : scan.FailsOn e (Mentions settings.marker)) {count start : Nat} {s : List Char}
    (h : readTag settings flavor scan count start s = .error e) : Mentions settings.marker s := by
  have hname : s.takeWhile isTagChar <:+: s := (List.takeWhile_prefix _).isInfix
  -- A component name settles it, whatever comes of the tag.
  cases hcanonical : canonicalName? settings.marker (s.takeWhile isTagChar) with
  | some name => exact (mentions_of_canonicalName? hcanonical).mono hname
  | none =>
    have hnone : tagSite settings count (s.takeWhile isTagChar) start = .ok none := by
      rw [tagSite, hcanonical]
    rcases readTag_eq_error h with hsite | ⟨site, hsite, hwalk⟩
    · cases hnone.symm.trans hsite
    · cases hnone.symm.trans hsite
      exact (mentions_of_tagWalk hscan rfl hwalk).mono (List.drop_suffix _ _).isInfix

end Tag

/-! ### Calls -/

/-- A call whose reading fails mentions the marker. -/
theorem mentions_of_callSite {settings : ScanSettings} {e : ExtractError}
    {count start place : Nat} {s : List Char}
    (h : callSite settings count start place s = .error e) : Mentions settings.marker s := by
  obtain ⟨t, tag, rest, name, ht, htag, hname, -⟩ := callSite_eq_error h
  obtain ⟨gap, -, rfl⟩ := eq_append_of_skipSpace_eq_cons ht
  obtain ⟨gap', quote, -, -, hbegin⟩ := isPrefix_of_calledElement? htag
  have htag : tag <:+: t := (List.suffix_append (gap' ++ quote) tag).isInfix.trans
    (hbegin.trans (callArguments_isPrefix _ t)).isInfix
  have ht : t <:+: gap ++ '(' :: t :=
    ((List.suffix_cons '(' t).trans (List.suffix_append gap _)).isInfix
  exact (mentions_of_canonicalName? hname).mono (htag.trans ht)

/-- Whatever the error, a scan gives it only on a text that mentions the marker. -/
theorem readersFailOn_mentions (settings : ScanSettings) (e : ExtractError) :
    ReadersFailOn settings e (Mentions settings.marker) where
  mono hst h := h.mono hst
  tag := mentions_of_readTag
  call := mentions_of_callSite

/-! ### Whole texts -/

/-- The scan of a text without the marker comes to an end and finds nothing. -/
theorem scanText_of_not_mentions {options : ExtractOptions} {text : List Char}
    (h : ¬ Mentions options.marker.toList text) (dialect : Dialect) :
    scanText options dialect text = .ok [] := by
  cases hscan : scanText options dialect text with
  | error e => exact absurd ((readersFailOn_mentions _ e).scanText hscan) h
  | ok found =>
    have hmention : mentionsMarker options.marker.toList text = false :=
      Bool.eq_false_iff.2 (mt mentionsMarker_iff.1 h)
    rw [List.map_eq_nil_iff.1 ((scanText_traced hscan).eq_nil hmention)]

/-- The sites of a text in the order of their places, from a scan of every text, whether it mentions
the marker or not. -/
def scannedSites (options : ExtractOptions) (dialect : Dialect) (text : List Char) :
    Except ExtractError (List Site) :=
  if options.maxBytes < Text.byteSize text then
    .error (.tooLarge (Text.byteSize text) options.maxBytes)
  else if text.contains '\x00' then .error .binary
  else (scanText options dialect text).map fun found =>
    found.reverse.mergeSort fun a b => a.start ≤ b.start

/-- **The check for the marker saves a scan** and changes nothing. -/
theorem findSites_eq_scannedSites (options : ExtractOptions) (dialect : Dialect)
    (text : List Char) : findSites options dialect text = scannedSites options dialect text := by
  rw [findSites, scannedSites]
  split
  · rfl
  split
  · rfl
  split
  · next hmention =>
    have hnone : ¬ Mentions options.marker.toList text := by
      rw [← mentionsMarker_iff]
      simpa using hmention
    rw [scanText_of_not_mentions hnone, Except.map, List.reverse_nil, List.mergeSort_nil]
  · rfl

/-- **A text without the marker has no sites.** When a text has neither the marker nor its Pascal
case in it, the scan of the whole text, in any dialect and within any limits, comes to an end
without a site, also on byte offsets, where every read and every cut is checked. So nothing is lost
when such a text is not scanned. -/
theorem scan_without_marker (options : ExtractOptions) (dialect : Dialect) (text : List Char)
    (hmarker : ¬ options.marker.toList <:+: text)
    (hpascal : ¬ pascalMarker options.marker.toList <:+: text) :
    scanText options dialect text = .ok [] ∧
      Offset.scanText options dialect text = .ok [] ∧
      mentionsMarker options.marker.toList text = false ∧
      findSites options dialect text = scannedSites options dialect text := by
  have hnone : ¬ Mentions options.marker.toList text := not_or.2 ⟨hmarker, hpascal⟩
  have hscan := scanText_of_not_mentions hnone dialect
  refine ⟨hscan, ?_, Bool.eq_false_iff.2 (mt mentionsMarker_iff.1 hnone),
    findSites_eq_scannedSites options dialect text⟩
  rw [Offset.scanText_eq, hscan]
  rfl

/-- An unreadable literal stops the scan at a component, and does not matter in a tag of another
name. -/
theorem scan_without_marker_literal :
    let text := "<div title=\x7b'é\n\x7d/>".toList
    scanText {} (.script true) "<va-card title=\x7b'é\n\x7d/>".toList = .error .splitCharacter ∧
      (¬ "va-".toList <:+: text ∧ ¬ pascalMarker "va-".toList <:+: text) ∧
      scanText {} (.script true) text = .ok [] ∧
      Offset.scanText {} (.script true) text = .ok [] := by
  have hmarker : ¬ "va-".toList <:+: "<div title=\x7b'é\n\x7d/>".toList := by decide +kernel
  have hpascal : ¬ pascalMarker "va-".toList <:+: "<div title=\x7b'é\n\x7d/>".toList := by
    decide +kernel
  obtain ⟨hscan, hoffset, -, -⟩ := scan_without_marker {} (.script true) _ hmarker hpascal
  exact ⟨by decide +kernel, ⟨hmarker, hpascal⟩, hscan, hoffset⟩

end ComponentAudit
