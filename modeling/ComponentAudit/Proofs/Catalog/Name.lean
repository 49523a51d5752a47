import ComponentAudit.Proofs.Path.Components
import ComponentAudit.Proofs.Text.Search
import ComponentAudit.Proofs.Written.Word

/-!
# Canonical names are a normal form

A component has a name of *segments*, such as `text` and `input`. In kebab case the marker stands in
front and dashes join the segments; in Pascal case all segments are capitalized, those of the marker
too. `canonicalName?` has one recognizer for each spelling and takes both to the kebab-case one.

The recognizers are stated once (`canonicalName?_eq_some_iff`), and the rest is about the way from
Pascal case to kebab case. A Pascal-case word has no dash, so the dashes that `dashed` puts in show
where the capitals were, and nothing is lost (`dashed_injective`). A capitalized segment becomes a
dash and the segment (`dashed_capitalized`), so capitalized segments in a row become the segments
joined by dashes (`kebab_flatMap_capitalized`).

The main statement is `canonicalName?_normalForm`.
-/

namespace ComponentAudit

open Written (Word)

/-! ### Spellings -/

/-- The characters of a segment after the first. -/
def isSegmentChar (c : Char) : Bool := c.isLower || c.isDigit

/-- A segment of a name: a lower-case letter, then lower-case letters and digits. -/
abbrev Segment := Word Char.isLower isSegmentChar

/-- What follows the marker in kebab case: a lower-case letter, then lower-case letters, digits and
dashes. -/
abbrev KebabWord := Word Char.isLower isKebabChar

/-- A segment with its first letter in upper case. -/
def capitalized (s : Segment) : List Char := s.head.toUpper :: s.tail

/-- The name of the given segments in kebab case. -/
def kebabSpelling (marker : List Char) (segments : List Segment) : List Char :=
  marker ++ ['-'].intercalate (segments.map Word.chars)

/-- The name of the given segments in Pascal case. -/
def pascalSpelling (marker : List Char) (segments : List Segment) : List Char :=
  pascalMarker marker ++ segments.flatMap capitalized

/-! ### Letters -/

/-- The capitals are the 26 characters from `A` on, so that a fact about each of them can be
computed. -/
theorem exists_of_isUpper {c : Char} (h : c.isUpper = true) :
    ∃ n : Fin 26, c = .ofNat (65 + n) := by
  have hbounds : 'A'.val ≤ c.val ∧ c.val ≤ 'Z'.val := of_decide_eq_true h
  simp only [UInt32.le_iff_toNat_le] at hbounds
  have hfirst : 'A'.val.toNat = 65 := rfl
  have hlast : 'Z'.val.toNat = 90 := rfl
  have hc : c.val.toNat = c.toNat := rfl
  refine ⟨⟨c.toNat - 65, by omega⟩, ?_⟩
  have hplace : 65 + (c.toNat - 65) = c.toNat := by omega
  rw [hplace, Char.ofNat_toNat]

/-- The small letters are the 26 characters from `a` on. -/
theorem exists_of_isLower {c : Char} (h : c.isLower = true) :
    ∃ n : Fin 26, c = .ofNat (97 + n) := by
  have hbounds : 'a'.val ≤ c.val ∧ c.val ≤ 'z'.val :=
    (Bool.and_eq_true_iff.1 h).imp of_decide_eq_true of_decide_eq_true
  simp only [UInt32.le_iff_toNat_le] at hbounds
  have hfirst : 'a'.val.toNat = 97 := rfl
  have hlast : 'z'.val.toNat = 122 := rfl
  have hc : c.val.toNat = c.toNat := rfl
  refine ⟨⟨c.toNat - 97, by omega⟩, ?_⟩
  have hplace : 97 + (c.toNat - 97) = c.toNat := by omega
  rw [hplace, Char.ofNat_toNat]

private theorem isAlpha_of_isUpper {c : Char} (h : c.isUpper = true) : c.isAlpha = true :=
  Bool.or_eq_true_iff.2 (.inl h)

private theorem isAlpha_of_isLower {c : Char} (h : c.isLower = true) : c.isAlpha = true :=
  Bool.or_eq_true_iff.2 (.inr h)

private theorem isLower_lowerAscii {c : Char} (h : c.isUpper = true) :
    (Text.lowerAscii c).isLower = true := by
  obtain ⟨n, rfl⟩ := exists_of_isUpper h
  revert n
  decide

/-- Capitals are told apart by their small letters. -/
theorem eq_of_lowerAscii_eq {c d : Char} (hc : c.isUpper = true) (hd : d.isUpper = true)
    (h : Text.lowerAscii c = Text.lowerAscii d) : c = d := by
  have hback : ∀ n : Fin 26, (Text.lowerAscii (.ofNat (65 + n))).toUpper = .ofNat (65 + n) := by
    decide
  obtain ⟨n, rfl⟩ := exists_of_isUpper hc
  obtain ⟨m, rfl⟩ := exists_of_isUpper hd
  rw [← hback n, ← hback m, h]

private theorem isUpper_toUpper {c : Char} (h : c.isLower = true) : c.toUpper.isUpper = true := by
  obtain ⟨n, rfl⟩ := exists_of_isLower h
  revert n
  decide

private theorem lowerAscii_toUpper {c : Char} (h : c.isLower = true) :
    Text.lowerAscii c.toUpper = c := by
  obtain ⟨n, rfl⟩ := exists_of_isLower h
  revert n
  decide

/-- Small letters go to capitals, and nothing else changes. -/
theorem upperAscii_isUpper_or_eq (c : Char) :
    (Text.upperAscii c).isUpper = true ∨ Text.upperAscii c = c := by
  by_cases h : c.isLower = true
  · obtain ⟨n, rfl⟩ := exists_of_isLower h
    left
    revert n
    decide
  · right
    exact if_neg fun hbounds => h
      (Bool.and_eq_true_iff.2 (hbounds.imp decide_eq_true decide_eq_true))

private theorem not_isUpper_of_isSegmentChar {c : Char} (h : isSegmentChar c = true) :
    ¬ c.isUpper = true := by
  intro hupper
  obtain ⟨n, rfl⟩ := exists_of_isUpper hupper
  have hno : ∀ n : Fin 26, isSegmentChar (.ofNat (65 + n)) = false := by decide
  rw [hno n] at h
  cases h

private theorem isAlphanum_of_isSegmentChar {c : Char} (h : isSegmentChar c = true) :
    c.isAlphanum = true := by
  rcases Bool.or_eq_true_iff.1 h with hlower | hdigit
  · rw [Char.isAlphanum, isAlpha_of_isLower hlower, Bool.true_or]
  · rw [Char.isAlphanum, hdigit, Bool.or_true]

/-! ### From Pascal case to kebab case -/

private theorem dashed_cons (c : Char) (s : List Char) :
    dashed (c :: s) = (if c.isUpper then ['-', Text.lowerAscii c] else [c]) ++ dashed s :=
  List.flatMap_cons

private theorem dashed_append (s t : List Char) : dashed (s ++ t) = dashed s ++ dashed t :=
  List.flatMap_append

/-- A word without dashes can be read off its dashed form. -/
theorem dashed_injective {s t : List Char} (hs : s.all Char.isAlphanum = true)
    (ht : t.all Char.isAlphanum = true) (h : dashed s = dashed t) : s = t := by
  induction s generalizing t with
  | nil =>
    cases t with
    | nil => rfl
    | cons d t =>
      rw [dashed_cons] at h
      split at h <;> cases h
  | cons c s ih =>
    cases t with
    | nil =>
      rw [dashed_cons] at h
      split at h <;> cases h
    | cons d t =>
      rw [List.all_cons, Bool.and_eq_true] at hs ht
      obtain ⟨hc, hs⟩ := hs
      obtain ⟨hd, ht⟩ := ht
      have hcdash : c ≠ '-' := Written.ne_of_class hc (by decide)
      have hddash : d ≠ '-' := Written.ne_of_class hd (by decide)
      rw [dashed_cons, dashed_cons] at h
      -- A dash begins the form of a capital, and of nothing else.
      split at h
      · next hcupper =>
        split at h
        · next hdupper =>
          simp only [List.cons_append, List.nil_append, List.cons.injEq, true_and] at h
          rw [eq_of_lowerAscii_eq hcupper hdupper h.1, ih hs ht h.2]
        · exact absurd (List.cons.inj h).1.symm hddash
      · split at h
        · exact absurd (List.cons.inj h).1 hcdash
        · obtain ⟨rfl, hst⟩ := List.cons.inj h
          rw [ih hs ht hst]

/-- A Pascal-case word can be read off its kebab-case form. -/
theorem kebab_injective {s t : List Char} (hs : isPascal s = true) (ht : isPascal t = true)
    (h : kebab s = kebab t) : s = t := by
  cases s with
  | nil => cases hs
  | cons c s =>
    cases t with
    | nil => cases ht
    | cons d t =>
      obtain ⟨hc, hs⟩ := Bool.and_eq_true_iff.1 hs
      obtain ⟨hd, ht⟩ := Bool.and_eq_true_iff.1 ht
      obtain ⟨hcd, hst⟩ := List.cons.inj h
      rw [eq_of_lowerAscii_eq hc hd hcd, dashed_injective hs ht hst]

/-- What becomes of letters and digits fits the dashed spelling. -/
theorem isKebabChar_of_mem_dashed {s : List Char} (hs : s.all Char.isAlphanum = true) {d : Char}
    (hd : d ∈ dashed s) : isKebabChar d = true := by
  obtain ⟨c, hc, hd⟩ := List.mem_flatMap.1 hd
  have halnum := List.all_eq_true.1 hs c hc
  split at hd
  · next hupper =>
    simp only [List.mem_cons, List.not_mem_nil, or_false] at hd
    rcases hd with rfl | rfl
    · decide
    · rw [isKebabChar, isLower_lowerAscii hupper, Bool.true_or, Bool.true_or]
  · next hupper =>
    rw [List.mem_singleton.1 hd, isKebabChar]
    rcases (Bool.or_eq_true_iff.1 halnum).imp_left Bool.or_eq_true_iff.1 with (h | h) | h
    · exact absurd h hupper
    · rw [h, Bool.true_or, Bool.true_or]
    · rw [h, Bool.or_true, Bool.true_or]

/-- The kebab-case form of a Pascal-case word is in kebab case. -/
theorem isKebab_kebab {s : List Char} (hs : isPascal s = true) : isKebab (kebab s) = true := by
  cases s with
  | nil => cases hs
  | cons c s =>
    obtain ⟨hc, hs⟩ := Bool.and_eq_true_iff.1 hs
    exact Bool.and_eq_true_iff.2 ⟨isLower_lowerAscii hc,
      List.all_eq_true.2 fun d hd => isKebabChar_of_mem_dashed hs hd⟩

/-- A text is in kebab case when it is a kebab-case word. -/
theorem isKebab_iff {s : List Char} : isKebab s = true ↔ ∃ w : KebabWord, s = w.chars := by
  constructor
  · intro h
    cases s with
    | nil => cases h
    | cons c s => exact ⟨.ofAll c s h, rfl⟩
  · rintro ⟨w, rfl⟩
    exact Bool.and_eq_true_iff.2 ⟨w.head_first, w.tail_more⟩

/-! ### Capitalized segments -/

private theorem dashed_tail (s : Segment) : dashed s.tail = s.tail := by
  have hplain : ∀ c ∈ s.tail, (if c.isUpper then ['-', Text.lowerAscii c] else [c]) = [c] :=
    fun c hc => if_neg (not_isUpper_of_isSegmentChar (List.all_eq_true.1 s.tail_more c hc))
  rw [dashed, List.flatMap_def, List.map_congr_left hplain, ← List.flatMap_def,
    List.flatMap_singleton']

/-- A capitalized segment becomes a dash and the segment. -/
theorem dashed_capitalized (s : Segment) : dashed (capitalized s) = '-' :: s.chars := by
  rw [capitalized, dashed_cons, if_pos (isUpper_toUpper s.head_first),
    lowerAscii_toUpper s.head_first, dashed_tail]
  rfl

/-- The first segment gets no dash. -/
theorem kebab_capitalized_append (s : Segment) (t : List Char) :
    kebab (capitalized s ++ t) = s.chars ++ dashed t := by
  rw [capitalized, List.cons_append, kebab, lowerAscii_toUpper s.head_first, dashed_append,
    dashed_tail, ← List.cons_append]
  rfl

/-- Capitalized segments in a row are the segments joined by dashes. -/
theorem kebab_flatMap_capitalized (s : Segment) (segments : List Segment) :
    kebab ((s :: segments).flatMap capitalized) =
      ['-'].intercalate ((s :: segments).map Word.chars) := by
  rw [List.flatMap_cons, kebab_capitalized_append]
  induction segments generalizing s with
  | nil => rw [List.map_singleton, List.intercalate_singleton]; exact List.append_nil _
  | cons t segments ih =>
    rw [List.flatMap_cons, dashed_append, dashed_capitalized, List.cons_append, ih t,
      List.map_cons, List.map_cons, List.map_cons, List.intercalate_cons_cons, List.append_assoc]
    rfl

private theorem isAlphanum_of_mem_capitalized {s : Segment} {c : Char} (hc : c ∈ capitalized s) :
    c.isAlphanum = true := by
  rcases List.mem_cons.1 hc with rfl | hc
  · rw [Char.isAlphanum, isAlpha_of_isUpper (isUpper_toUpper s.head_first), Bool.true_or]
  · exact isAlphanum_of_isSegmentChar (List.all_eq_true.1 s.tail_more c hc)

/-- Capitalized segments in a row are in Pascal case. -/
theorem isPascal_flatMap_capitalized (s : Segment) (segments : List Segment) :
    isPascal ((s :: segments).flatMap capitalized) = true := by
  have halnum : ∀ c ∈ (s :: segments).flatMap capitalized, c.isAlphanum = true := by
    intro c hc
    obtain ⟨t, -, ht⟩ := List.mem_flatMap.1 hc
    exact isAlphanum_of_mem_capitalized ht
  refine Bool.and_eq_true_iff.2 ⟨isUpper_toUpper s.head_first, List.all_eq_true.2 fun c hc => ?_⟩
  exact halnum c (List.mem_cons_of_mem _ hc)

/-- The marker has no dash in Pascal case. -/
theorem not_mem_pascalMarker (marker : List Char) : '-' ∉ pascalMarker marker := by
  intro hmem
  obtain ⟨piece, hpiece, hmem⟩ := List.mem_flatMap.1 hmem
  have hdash : '-' ∉ piece := Text.not_mem_of_mem_splitAt hpiece
  cases piece with
  | nil => cases hmem
  | cons c s =>
    rcases List.mem_cons.1 hmem with h | h
    · rcases upperAscii_isUpper_or_eq c with hupper | hsame
      · exact absurd (h ▸ hupper) (by decide)
      · exact hdash ((h.trans hsame) ▸ List.mem_cons_self)
    · exact hdash (List.mem_cons_of_mem _ h)

/-- A Pascal-case spelling does not begin with a marker that has a dash. -/
theorem not_isPrefix_pascalSpelling {marker : List Char} (h : '-' ∈ marker)
    (segments : List Segment) : ¬ marker <+: pascalSpelling marker segments := by
  intro hmarker
  rcases List.mem_append.1 (hmarker.subset h) with hmem | hmem
  · exact not_mem_pascalMarker marker hmem
  · obtain ⟨s, -, hs⟩ := List.mem_flatMap.1 hmem
    exact absurd (isAlphanum_of_mem_capitalized hs) (by decide)

/-! ### Canonical names -/

/-- What the two recognizers accept, and what they answer. Kebab case is tried first. -/
theorem canonicalName?_eq_some_iff {marker raw c : List Char} :
    canonicalName? marker raw = some c ↔
      (∃ rest, raw = marker ++ rest ∧ isKebab rest = true ∧ c = raw) ∨
        ¬ marker <+: raw ∧ ∃ rest, raw = pascalMarker marker ++ rest ∧ isPascal rest = true ∧
          c = marker ++ kebab rest := by
  rw [canonicalName?]
  cases hkebab : Text.stripStart? marker raw with
  | some rest =>
    obtain rfl := Text.stripStart?_eq_some_iff.1 hkebab
    simp only [List.prefix_append, not_true_eq_false, false_and, or_false,
      List.append_cancel_left_eq, exists_eq_left', Option.ite_none_right_eq_some,
      Option.some.injEq, @eq_comm _ c]
  | none =>
    have hnot : ∀ rest, raw ≠ marker ++ rest := by
      intro rest hraw
      rw [Text.stripStart?_eq_some_iff.2 hraw] at hkebab
      cases hkebab
    have hprefix : ¬ marker <+: raw := fun ⟨rest, hraw⟩ => hnot rest hraw.symm
    simp only [hnot, false_and, exists_false, false_or, hprefix, not_false_eq_true, true_and]
    cases hpascal : Text.stripStart? (pascalMarker marker) raw with
    | some rest =>
      obtain rfl := Text.stripStart?_eq_some_iff.1 hpascal
      simp only [List.append_cancel_left_eq, exists_eq_left', Option.ite_none_right_eq_some,
        Option.some.injEq, @eq_comm _ c]
    | none =>
      refine iff_of_false (by simp) ?_
      rintro ⟨rest, hraw, -⟩
      rw [Text.stripStart?_eq_some_iff.2 hraw] at hpascal
      cases hpascal

/-- A canonical name is the marker and a kebab-case word. -/
theorem exists_kebabWord_of_canonicalName? {marker raw c : List Char}
    (h : canonicalName? marker raw = some c) : ∃ w : KebabWord, c = marker ++ w.chars := by
  rcases canonicalName?_eq_some_iff.1 h with ⟨rest, rfl, hrest, rfl⟩ | ⟨-, rest, -, hrest, rfl⟩
  · obtain ⟨w, rfl⟩ := isKebab_iff.1 hrest
    exact ⟨w, rfl⟩
  · obtain ⟨w, hw⟩ := isKebab_iff.1 (isKebab_kebab hrest)
    exact ⟨w, by rw [hw]⟩

/-- The marker and a kebab-case word are their own canonical name. -/
theorem canonicalName?_append_kebabWord (marker : List Char) (w : KebabWord) :
    canonicalName? marker (marker ++ w.chars) = some (marker ++ w.chars) :=
  canonicalName?_eq_some_iff.2 (.inl ⟨w.chars, rfl, isKebab_iff.2 ⟨w, rfl⟩, rfl⟩)

/-- Identifiers that do not begin with the marker are told apart by their canonical names. -/
theorem eq_of_canonicalName?_eq {marker raw raw' c : List Char} (hraw : ¬ marker <+: raw)
    (hraw' : ¬ marker <+: raw') (h : canonicalName? marker raw = some c)
    (h' : canonicalName? marker raw' = some c) : raw = raw' := by
  rcases canonicalName?_eq_some_iff.1 h with ⟨rest, rfl, -⟩ | ⟨-, rest, rfl, hrest, rfl⟩
  · exact absurd (List.prefix_append marker rest) hraw
  · rcases canonicalName?_eq_some_iff.1 h' with ⟨rest', rfl, -⟩ | ⟨-, rest', rfl, hrest', hc⟩
    · exact absurd (List.prefix_append marker rest') hraw'
    · rw [kebab_injective hrest hrest' (List.append_cancel_left hc)]

/-- The Pascal-case spelling goes to the kebab-case one. -/
theorem canonicalName?_pascalSpelling {marker : List Char} (h : '-' ∈ marker)
    {segments : List Segment} (hsegments : segments ≠ []) :
    canonicalName? marker (pascalSpelling marker segments) =
      some (kebabSpelling marker segments) := by
  obtain ⟨s, segments, rfl⟩ := List.exists_cons_of_ne_nil hsegments
  refine canonicalName?_eq_some_iff.2 (.inr ⟨not_isPrefix_pascalSpelling h _, _, rfl,
    isPascal_flatMap_capitalized s segments, ?_⟩)
  rw [kebabSpelling, kebab_flatMap_capitalized]

/-- **Canonical names are a normal form.** A canonical name is the marker and a kebab-case word, and
its own canonical name. Identifiers that do not begin with the marker never share one. And when the
marker ends with a dash, the Pascal-case spelling and the kebab-case spelling of any segments have
one canonical name, the kebab-case spelling. -/
theorem canonicalName?_normalForm (marker : List Char) :
    (∀ raw c : List Char, canonicalName? marker raw = some c →
      (∃ w : KebabWord, c = marker ++ w.chars) ∧ canonicalName? marker c = some c) ∧
    (∀ raw raw' c c' : List Char, ¬ marker <+: raw → ¬ marker <+: raw' → raw ≠ raw' →
      canonicalName? marker raw = some c → canonicalName? marker raw' = some c' → c ≠ c') ∧
    (marker.getLast? = some '-' → ∀ segments : List Segment, segments ≠ [] →
      canonicalName? marker (pascalSpelling marker segments) =
          some (kebabSpelling marker segments) ∧
        canonicalName? marker (kebabSpelling marker segments) =
          some (kebabSpelling marker segments)) := by
  have hnormal : ∀ raw c : List Char, canonicalName? marker raw = some c →
      (∃ w : KebabWord, c = marker ++ w.chars) ∧ canonicalName? marker c = some c := by
    intro raw c h
    obtain ⟨w, rfl⟩ := exists_kebabWord_of_canonicalName? h
    exact ⟨⟨w, rfl⟩, canonicalName?_append_kebabWord marker w⟩
  refine ⟨hnormal, fun raw raw' c c' hraw hraw' hne h h' hc => ?_, fun hdash segments hne => ?_⟩
  · exact hne (eq_of_canonicalName?_eq hraw hraw' h (hc ▸ h'))
  · have hpascal := canonicalName?_pascalSpelling (List.mem_of_getLast? hdash) hne
    exact ⟨hpascal, (hnormal _ _ hpascal).2⟩

/-- A marker of two pieces, and a segment that ends with a digit. -/
theorem canonicalName?_normalForm_textInput :
    let marker := "usa-gov-".toList
    let segments : List Segment := [.ofAll 't' "ext".toList (by decide),
      .ofAll 'i' "nput2".toList (by decide)]
    pascalSpelling marker segments = "UsaGovTextInput2".toList ∧
      canonicalName? marker "UsaGovTextInput2".toList = some "usa-gov-text-input2".toList ∧
      canonicalName? marker "usa-gov-text-input2".toList = some "usa-gov-text-input2".toList ∧
      ∃ w : KebabWord, "usa-gov-text-input2".toList = marker ++ w.chars := by
  intro marker segments
  obtain ⟨hnormal, -, hspellings⟩ := canonicalName?_normalForm marker
  obtain ⟨hpascal, hkebab⟩ := hspellings (by decide) segments (by simp [segments])
  have hpascalSpelling : pascalSpelling marker segments = "UsaGovTextInput2".toList := by decide
  have hkebabSpelling : kebabSpelling marker segments = "usa-gov-text-input2".toList := by decide
  rw [hpascalSpelling, hkebabSpelling] at hpascal
  rw [hkebabSpelling] at hkebab
  exact ⟨hpascalSpelling, hpascal, hkebab, (hnormal _ _ hpascal).1⟩

end ComponentAudit
