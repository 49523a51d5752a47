import ComponentAudit.Extraction

/-!
# Where a scan fails

A scan reports an error only where a start tag or a call is read, and there in few places:
`readTag_eq_error`, `TagState.addAttribute_eq_error` and `callSite_eq_error` list them.

So whatever is known of the tags and calls that give an error is known of the text: when such a tag
or call has a property, and a text has it as soon as a part of it does, then each text has it on
which the scan gives that error (`ReadersFailOn.scanText`). A tag may fail in the scan of its
attribute expressions too, which is why it is asked about with an inner scan that fails as expected
(`InnerScan.FailsOn`).
-/

namespace ComponentAudit

/-! ### Tags and calls -/

section Readers

variable {settings : ScanSettings} {flavor : Flavor} {scan : InnerScan} {e : ExtractError}
  {s : List Char}

/-- An attribute fails with the scan of its expression, or because the site of the tag cannot take
its value. -/
theorem TagState.addAttribute_eq_error {st : TagState} {place : Nat} {a : Attribute}
    (h : st.addAttribute flavor scan place a = .error e) :
    (∃ expr, a.value = .expr expr ∧
        scan st.count ⟨place + a.valueStart, some '\x7b', expr⟩ = .error e) ∨
      ∃ site, st.site = some site ∧ site.apply? flavor a = none := by
  unfold addAttribute at h
  dsimp only at h
  split at h
  · next hfound =>
    cases h
    split at hfound
    · next expr hvalue => exact .inl ⟨expr, hvalue, hfound⟩
    · cases hfound
  · split at h
    · cases h
    · next site hsite =>
      split at h
      · next happly => exact .inr ⟨site, hsite, happly⟩
      · cases h

/-- A start tag fails with its site or with its attributes. -/
theorem readTag_eq_error {count start : Nat}
    (h : readTag settings flavor scan count start s = .error e) :
    let name := s.takeWhile isTagChar
    tagSite settings count name start = .error e ∨
      ∃ site, tagSite settings count name start = .ok site ∧
        tagWalk flavor scan name ⟨site, [], count + site.toList.length⟩
          (start + 1 + name.length) 0 (s.drop name.length) = .error e := by
  cases s with
  | nil => cases h
  | cons c s =>
    rw [readTag] at h
    split at h
    · cases h
    split at h
    · cases h
    dsimp only at h
    split at h
    · cases h
    split at h
    · next hsite =>
      cases h
      exact .inl hsite
    · next site hsite => exact .inr ⟨site, hsite, h⟩

/-- A call fails only when its first argument names a component: with its site, or with the object
literal that holds its props. -/
theorem callSite_eq_error {count start place : Nat}
    (h : callSite settings count start place s = .error e) :
    ∃ t tag rest name, Script.skipSpace s = '(' :: t ∧
      calledElement? settings.marker (callArguments (place + Script.spaceLength s + 1) t).1 =
        some (tag, rest) ∧
      canonicalName? settings.marker tag = some name ∧
      (newSite settings count tag name start = .error e ∨
        ∃ body, nextObject? rest = some body ∧ Script.readObject? body = none) := by
  rw [callSite] at h
  split at h
  · next t ht =>
    dsimp only at h
    split at h
    · cases h
    next tag rest htag =>
    split at h
    · cases h
    next name hname =>
    refine ⟨t, tag, rest, name, ht, htag, hname, ?_⟩
    split at h
    · next hnew =>
      cases h
      exact .inl hnew
    split at h
    · cases h
    next body hbody =>
    split at h
    · next happly => exact .inr ⟨body, hbody, Option.map_eq_none_iff.1 happly⟩
    · cases h
  · cases h

end Readers

/-! ### Properties of failing texts -/

/-- The scan gives the error only on regions with the property. -/
def InnerScan.FailsOn (e : ExtractError) (P : List Char → Prop) (scan : InnerScan) : Prop :=
  ∀ (count : Nat) (region : Region), scan count region = .error e → P region.chars

/-- Tags and calls give the error only on texts with the property, and a text with a part that has
the property has it. -/
structure ReadersFailOn (settings : ScanSettings) (e : ExtractError) (P : List Char → Prop) :
    Prop where
  mono : ∀ {s t : List Char}, s <:+: t → P s → P t
  tag : ∀ {flavor : Flavor} {scan : InnerScan}, scan.FailsOn e P →
    ∀ {count start : Nat} {s : List Char},
      readTag settings flavor scan count start s = .error e → P s
  call : ∀ {count start place : Nat} {s : List Char},
    callSite settings count start place s = .error e → P s

variable {settings : ScanSettings} {e : ExtractError} {P : List Char → Prop}

private theorem InnerScan.failsOn_nothing : InnerScan.FailsOn e P fun _ _ => .ok [] :=
  fun _ _ h => nomatch h

namespace ReadersFailOn

/-! ### Script code -/

section Script

variable {s : ScriptScan} (hreaders : ReadersFailOn s.settings e P) {st : ScriptState}
  {place : Nat} {c : Char} {before rest : List Char}
include hreaders

/-- A step at a `<` fails only on a text that its readers fail on. -/
theorem openStep (hscan : s.scan.FailsOn e P)
    (h : ComponentAudit.openStep s st place rest = .error e) : P rest := by
  rw [ComponentAudit.openStep] at h
  split at h
  · next htag =>
    cases h
    exact hreaders.tag hscan htag
  · cases h
  · cases h

/-- A step at an identifier fails only on such a text. -/
theorem identStep (h : ComponentAudit.identStep s st place before c rest = .error e) :
    P (c :: rest) := by
  rw [ComponentAudit.identStep] at h
  split at h
  · cases h
  · split at h
    · next hcall =>
      cases h
      exact hreaders.mono (List.drop_suffix _ _).isInfix (hreaders.call hcall)
    · cases h
    · cases h

/-- So does every step through code. -/
theorem scriptStep (hscan : s.scan.FailsOn e P)
    (h : ComponentAudit.scriptStep s st place before c rest = .error e) : P (c :: rest) := by
  -- A tag may open among the children of an element and in code.
  have hopen : ComponentAudit.openStep s st place rest = .error e → P (c :: rest) := fun h =>
    hreaders.mono (List.suffix_cons c rest).isInfix (hreaders.openStep hscan h)
  rw [ComponentAudit.scriptStep] at h
  split at h
  · rw [childrenStep] at h
    split at h
    · cases h
    · split at h
      · split at h
        · cases h
        · exact hopen h
      · cases h
  · rw [scriptCodeStep] at h
    split at h
    · cases h
    · split at h
      · cases h
      · split at h
        · split at h <;> cases h
        · split at h
          · cases h
          · split at h
            · cases h
            · split at h
              · exact hopen h
              · split at h
                · exact hreaders.identStep h
                · cases h

/-- So does the walk. -/
theorem scriptWalk (hscan : s.scan.FailsOn e P) {text : List Char} {skip : Nat}
    (h : ComponentAudit.scriptWalk s st place before skip text = .error e) : P text := by
  induction text generalizing st place before skip with
  | nil => cases skip <;> cases h
  | cons c rest ih =>
    have hrest : P rest → P (c :: rest) := hreaders.mono (List.suffix_cons c rest).isInfix
    cases skip with
    | succ skip => exact hrest (ih h)
    | zero =>
      rw [ComponentAudit.scriptWalk] at h
      split at h
      · next hstep =>
        cases h
        exact hreaders.scriptStep hscan hstep
      · exact hrest (ih h)

end Script

/-- **Failures of code.** A scan of script code fails only on a text that contains what its readers
fail on. -/
theorem scanScript (hreaders : ReadersFailOn settings e P) (levels : Nat) (jsx : Bool) :
    (ComponentAudit.scanScript settings levels jsx).FailsOn e P := by
  induction levels generalizing jsx with
  | zero => exact fun _ _ h => scriptWalk hreaders InnerScan.failsOn_nothing h
  | succ levels ih => exact fun _ _ h => scriptWalk hreaders (ih true) h

/-! ### Template markup -/

section Markup

variable {script : Bool → InnerScan} {st : MarkupState} {place skip : Nat} {text rest : List Char}

/-- A step behind a start tag fails only on such a text. -/
theorem tagStep (hreaders : ReadersFailOn settings e P) (hscript : ∀ jsx, (script jsx).FailsOn e P)
    {tag : Tag} (h : ComponentAudit.tagStep script st place text tag = .error e) : P text := by
  rw [ComponentAudit.tagStep] at h
  dsimp only at h
  split at h
  · cases h
  · split at h
    · split at h
      · next hbody =>
        cases h
        exact hreaders.mono ((List.take_prefix _ _).isInfix.trans (List.drop_suffix _ _).isInfix)
          (hscript _ _ _ hbody)
      · cases h
    · split at h <;> cases h

/-- So does every step through markup. -/
theorem markupStep (hreaders : ReadersFailOn settings e P)
    (hscript : ∀ jsx, (script jsx).FailsOn e P)
    (h : ComponentAudit.markupStep settings script st place rest = .error e) :
    P ('<' :: rest) := by
  unfold ComponentAudit.markupStep at h
  split at h
  · split at h <;> cases h
  · cases h
  · cases h
  · cases h
  · split at h
    · next htag =>
      cases h
      exact hreaders.mono (List.suffix_cons _ _).isInfix
        (hreaders.tag InnerScan.failsOn_nothing htag)
    · cases h
    · exact hreaders.tagStep hscript h

/-- So does the walk. -/
theorem markupWalk (hreaders : ReadersFailOn settings e P)
    (hscript : ∀ jsx, (script jsx).FailsOn e P)
    (h : ComponentAudit.markupWalk settings script st place skip text = .error e) : P text := by
  induction text generalizing st place skip with
  | nil => cases skip <;> cases h
  | cons c rest ih =>
    have hrest : P rest → P (c :: rest) := hreaders.mono (List.suffix_cons c rest).isInfix
    cases skip with
    | succ skip => exact hrest (ih h)
    | zero =>
      rw [ComponentAudit.markupWalk] at h
      split at h
      · next hc =>
        split at h
        · next hstep =>
          cases h
          exact hc ▸ hreaders.markupStep hscript hstep
        · exact hrest (ih h)
      · exact hrest (ih h)

end Markup

/-! ### Whole texts -/

/-- **Failures of a scan.** Whatever the dialect, a scan fails only on a text that contains what its
readers fail on. -/
theorem scanText {options : ExtractOptions} {dialect : Dialect} {text : List Char}
    (hreaders : ReadersFailOn ⟨options.marker.toList, options.maxSites⟩ e P)
    (h : ComponentAudit.scanText options dialect text = .error e) : P text := by
  cases dialect with
  | script jsx => exact hreaders.scanScript _ _ _ (Region.ofText text) h
  | template => exact hreaders.markupWalk (hreaders.scanScript _) h

end ReadersFailOn

end ComponentAudit
