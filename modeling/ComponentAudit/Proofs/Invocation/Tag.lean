import ComponentAudit.Proofs.Invocation.Basic

/-!
# Invocations in tags and calls

The two readers that record sites, `readTag` and `callSite`, record real invocations at their own
places. Besides its own site a tag reports what an inner scan finds in its attribute expressions.
What is asked of that scan is `InnerScan.Traces`: the sites of a region are real invocations of the
region. `readTag_traced` and `callSite_real` are the facts that the scans of whole texts are built
on.
-/

namespace ComponentAudit

/-! ### Stretches of a text -/

/-- A stretch of a text stays one when its first characters are left off. -/
theorem prefix_drop_add {s text : List Char} {place : Nat} (h : s <+: text.drop place) (n : Nat) :
    s.drop n <+: text.drop (place + n) := by
  obtain ⟨t, ht⟩ := h
  rw [← List.drop_drop, ← ht, List.drop_append]
  exact List.prefix_append _ _

theorem drop_spaceLength (s : List Char) : s.drop (Script.spaceLength s) = Script.skipSpace s := by
  have h : s.takeWhile Text.isSpace ++ s.dropWhile Text.isSpace = s :=
    List.takeWhile_append_dropWhile
  calc s.drop (Script.spaceLength s)
      = (s.takeWhile Text.isSpace ++ s.dropWhile Text.isSpace).drop
          (s.takeWhile Text.isSpace).length := by rw [h]; rfl
    _ = Script.skipSpace s := List.drop_left

/-- Where the separators end, they have been separators up to there. -/
theorem eq_append_of_skipSpace_eq_cons {s t : List Char} {c : Char}
    (h : Script.skipSpace s = c :: t) :
    ∃ gap : List Char, (∀ d ∈ gap, Text.isSpace d = true) ∧ s = gap ++ c :: t := by
  refine ⟨s.takeWhile Text.isSpace, List.all_eq_true.1 List.all_takeWhile, ?_⟩
  rw [← h]
  exact List.takeWhile_append_dropWhile.symm

/-! ### Scans of inner regions -/

/-- Whatever region of the text the scan is given, it finds real invocations of that region. -/
def InnerScan.Traces (marker : List Char) (tags : Bool) (text : List Char) (scan : InnerScan) :
    Prop :=
  ∀ (count : Nat) (region : Region) (found : List Site),
    region.chars <+: text.drop region.start → scan count region = .ok found →
      Traced marker tags text region.start (region.start + region.chars.length)
        (found.map Site.invocation)

theorem InnerScan.traces_nothing {marker : List Char} {tags : Bool} {text : List Char} :
    InnerScan.Traces marker tags text fun _ _ => .ok [] := by
  intro _ _ found _ h
  cases h
  exact Traced.nil

/-! ### Attributes -/

/-- The expression of an attribute is a stretch of the attribute. -/
theorem readValue?_expr {flavor : Flavor} {s e : List Char} {before length : Nat}
    (h : readValue? flavor s = some (.expr e, before, length)) :
    e <+: s.drop before ∧ before + e.length ≤ length := by
  cases s with
  | nil => simp [readValue?] at h
  | cons c s =>
    simp only [readValue?] at h
    split at h
    · obtain ⟨n, _, hn⟩ := Option.map_eq_some_iff.1 h
      simp at hn
    · split at h
      · obtain ⟨n, _, hn⟩ := Option.map_eq_some_iff.1 h
        simp only [Prod.mk.injEq, AttrValue.expr.injEq] at hn
        obtain ⟨rfl, rfl, rfl⟩ := hn
        refine ⟨List.take_prefix n s, ?_⟩
        have := List.length_take_le n s
        omega
      · cases flavor <;> simp at h

/-- The expression of an attribute stands inside the attribute. -/
theorem readAttribute?_expr {flavor : Flavor} {s e : List Char} {a : Attribute}
    (h : readAttribute? flavor s = some a) (he : a.value = .expr e) :
    e <+: s.drop a.valueStart ∧ a.valueStart + e.length ≤ a.length := by
  rw [readAttribute?] at h
  split at h
  · next value hvalue =>
    obtain ⟨⟨v, before, length⟩, hread, ha⟩ := Option.map_eq_some_iff.1 h
    subst ha
    simp only at he ⊢
    subst he
    obtain ⟨hbegin, hle⟩ := readValue?_expr hread
    refine ⟨?_, by omega⟩
    -- The value begins after the name, the separators, the `=` and more separators.
    have hdrop : s.drop ((s.takeWhile isAttrChar).length +
        Script.spaceLength (s.drop (s.takeWhile isAttrChar).length) + 1 +
          Script.spaceLength value + before) = (Script.skipSpace value).drop before := by
      rw [← drop_spaceLength value, ← List.drop_drop, ← List.drop_drop, ← List.drop_drop,
        ← List.drop_drop, hvalue]
      rfl
    rwa [hdrop]
  · cases h
    simp at he

/-- An attribute does not change which invocation it belongs to. -/
theorem invocation_of_apply? {s s' : Site} {flavor : Flavor} {a : Attribute}
    (h : s.apply? flavor a = some s') : s'.invocation = s.invocation := by
  obtain ⟨m, _, rfl⟩ := Option.map_eq_some_iff.1 h
  cases m <;> rfl

/-! ### Parts of a tag -/

/-- What closes a tag is there. -/
theorem close_length_of_tagPart {flavor : Flavor} {c : Char} {rest : List Char}
    {selfClosing : Bool} {length : Nat} (h : tagPart flavor c rest = .close selfClosing length) :
    0 < length ∧ length ≤ (c :: rest).length := by
  rw [tagPart] at h
  split at h
  · cases h
  · split at h
    · cases h
    · split at h
      · next hclose =>
        cases h
        simp only [Bool.and_eq_true, decide_eq_true_eq] at hclose
        obtain ⟨d, t, rfl⟩ : ∃ d t, rest = d :: t := by
          cases rest with
          | nil => simp at hclose
          | cons d t => exact ⟨d, t, rfl⟩
        simp
      · split at h
        · cases h
          simp
        · split at h
          · split at h
            · cases h
            · split at h <;> cases h
          · split at h
            · split at h <;> cases h
            · cases h

/-- What begins as an attribute is read as one. -/
theorem readAttribute?_of_tagPart {flavor : Flavor} {c : Char} {rest : List Char} {a : Attribute}
    (h : tagPart flavor c rest = .attribute a) : readAttribute? flavor (c :: rest) = some a := by
  rw [tagPart] at h
  split at h
  · cases h
  · split at h
    · cases h
    · split at h
      · cases h
      · split at h
        · cases h
        · split at h
          · split at h
            · cases h
            · split at h <;> cases h
          · split at h
            · split at h
              · next a' ha =>
                cases h
                exact ha
              · cases h
            · cases h

/-! ### Start tags -/

/-- The invocations that have been read of a tag, latest first. -/
def TagState.invocations (st : TagState) : List Invocation :=
  (st.inner ++ st.site.toList).map Site.invocation

/-- The invocations of a tag, latest first. -/
def Tag.invocations (t : Tag) : List Invocation := (t.inner ++ t.site.toList).map Site.invocation

@[simp]
theorem map_invocation_endingAt (site : Option Site) (stop : Nat) :
    (site.map (·.endingAt stop)).toList.map Site.invocation =
      site.toList.map Site.invocation := by
  cases site <;> rfl

/-- Where the element of a tag ends does not matter for its invocations. -/
theorem Tag.map_invocation_sites (t : Tag) (stop : Nat) :
    (t.sites stop).map Site.invocation = t.invocations := by
  simp [Tag.sites, Tag.invocations]

section Tag

variable {marker text : List Char} {scan : InnerScan} {flavor : Flavor}

/-- What adding an attribute does: the sites of its expression come in front, and the site of the
tag takes the attribute. -/
theorem TagState.addAttribute_eq_ok {st st' : TagState} {place : Nat} {a : Attribute}
    (h : st.addAttribute flavor scan place a = .ok st') :
    ∃ found : List Site, st'.inner = found ++ st.inner ∧
      (found = [] ∨ ∃ e, a.value = .expr e ∧
        scan st.count ⟨place + a.valueStart, some '\x7b', e⟩ = .ok found) ∧
      (st'.site = st.site ∨
        ∃ s s', st.site = some s ∧ s.apply? flavor a = some s' ∧ st'.site = some s') := by
  simp only [TagState.addAttribute] at h
  split at h
  · cases h
  · next found hfound =>
    refine ⟨found, ?_, ?_, ?_⟩
    · split at h
      · cases h
        rfl
      · split at h <;> cases h
        rfl
    · split at hfound
      · next e he => exact .inr ⟨e, he, hfound⟩
      · cases hfound
        exact .inl rfl
    · split at h
      · cases h
        exact .inl rfl
      · next s hs =>
        split at h
        · cases h
        · next s' hs' =>
          cases h
          exact .inr ⟨s, s', hs, hs', rfl⟩

/-- An attribute adds real invocations of its own stretch. -/
theorem TagState.addAttribute_traced (hscan : scan.Traces marker true text) {st st' : TagState}
    {place : Nat} {s : List Char} {a : Attribute} (htext : s <+: text.drop place)
    (ha : readAttribute? flavor s = some a) (h : st.addAttribute flavor scan place a = .ok st') :
    ∃ new, st'.invocations = new ++ st.invocations ∧
      Traced marker true text place (place + a.length) new := by
  obtain ⟨found, hinner, hfound, hsite⟩ := TagState.addAttribute_eq_ok h
  have hsite' : st'.site.toList.map Site.invocation = st.site.toList.map Site.invocation := by
    rcases hsite with hsite | ⟨s, s', hs, happly, hs'⟩
    · rw [hsite]
    · simp [hs, hs', invocation_of_apply? happly]
  refine ⟨found.map Site.invocation, by simp [TagState.invocations, hinner, hsite'], ?_⟩
  rcases hfound with rfl | ⟨e, he, hfound⟩
  · exact Traced.nil
  · obtain ⟨hbegin, hle⟩ := readAttribute?_expr ha he
    have hregion := hbegin.trans (prefix_drop_add htext a.valueStart)
    refine (hscan _ _ _ hregion hfound).mono (Nat.le_add_right _ _) ?_
    simp only
    omega

/-- The walk over the attributes of a tag keeps what it has, and adds invocations of its own
stretch. -/
theorem tagWalk_traced (hscan : scan.Traces marker true text) {name : List Char} {tag : Tag}
    {start : Nat} (chars : List Char) :
    ∀ (st : TagState) (place skip : Nat), start ≤ place → chars <+: text.drop place →
      Traced marker true text start (place + skip) st.invocations →
      tagWalk flavor scan name st place skip chars = .ok (some tag) →
        Traced marker true text start tag.stop tag.invocations ∧
          place < tag.stop ∧ tag.stop ≤ place + chars.length := by
  induction chars with
  | nil =>
    intro st place skip _ _ _ h
    cases skip <;> simp [tagWalk] at h
  | cons c rest ih =>
    intro st place skip hstart htext hst h
    have hrest : rest <+: text.drop (place + 1) := prefix_drop_add htext 1
    -- Every case but the end of the tag goes on just after `c`.
    have hnext : ∀ (st : TagState) (skip : Nat),
        Traced marker true text start (place + 1 + skip) st.invocations →
        tagWalk flavor scan name st (place + 1) skip rest = .ok (some tag) →
          Traced marker true text start tag.stop tag.invocations ∧
            place < tag.stop ∧ tag.stop ≤ place + (c :: rest).length := by
      intro st skip hst h
      obtain ⟨htraced, hlt, hle⟩ := ih st (place + 1) skip (Nat.le_succ_of_le hstart) hrest hst h
      refine ⟨htraced, Nat.lt_of_succ_lt hlt, ?_⟩
      simp only [List.length_cons]
      omega
    cases skip with
    | succ n =>
      refine hnext st n ?_ h
      exact hst.mono (Nat.le_refl _) (by omega)
    | zero =>
      rw [tagWalk] at h
      split at h
      · next selfClosing length hpart =>
        cases h
        have hlength : 0 < length ∧ length ≤ (c :: rest).length := close_length_of_tagPart hpart
        exact ⟨hst.mono (Nat.le_refl _) (by simp only; omega), by simp only; omega,
          by simp only; omega⟩
      · cases h
      · next skip _ =>
        exact hnext st skip (hst.mono (Nat.le_refl _) (by omega)) h
      · next skip _ =>
        refine hnext _ skip ?_ h
        have hsame : TagState.invocations
            { st with site := st.site.map fun s => { s with spread := true } } =
              st.invocations := by
          cases hs : st.site <;> simp [TagState.invocations, hs, Site.invocation]
        rw [hsame]
        exact hst.mono (Nat.le_refl _) (by omega)
      · next a hpart =>
        split at h
        · cases h
        · next st' hadd =>
          refine hnext st' (a.length - 1) ?_ h
          obtain ⟨new, hnew, htraced⟩ :=
            TagState.addAttribute_traced hscan htext (readAttribute?_of_tagPart hpart) hadd
          rw [hnew]
          exact (htraced.append hst hstart (Nat.le_add_right _ _)).mono (Nat.le_refl _)
            (by omega)

/-- The site of a tag names the tag as it is written and its canonical name. -/
theorem tagSite_real {settings : ScanSettings} {count start : Nat} {name : List Char} {site : Site}
    (h : tagSite settings count name start = .ok (some site)) :
    site.invocation = ⟨String.ofList name, site.name, start⟩ ∧
      canonicalName? settings.marker name = some site.name.toList := by
  rw [tagSite] at h
  split at h
  · cases h
  · next canonical hcanonical =>
    rw [newSite] at h
    split at h
    · cases h
    · cases h
      exact ⟨rfl, by rw [hcanonical, String.toList_ofList]⟩

/-- A start tag that has been read reports real invocations, its own site first of all. -/
theorem readTag_traced {settings : ScanSettings} (hscan : scan.Traces settings.marker true text)
    {count start : Nat} {s : List Char} {tag : Tag} (htext : '<' :: s <+: text.drop start)
    (h : readTag settings flavor scan count start s = .ok (some tag)) :
    Traced settings.marker true text start tag.stop tag.invocations ∧
      start < tag.stop ∧ tag.stop ≤ start + 1 + s.length := by
  cases s with
  | nil => simp [readTag] at h
  | cons c s =>
    rw [readTag] at h
    split at h
    · cases h
      exact ⟨Traced.nil, by simp only; omega, by simp only [List.length_cons]; omega⟩
    split at h
    · cases h
    simp only at h
    split at h
    · cases h
    split at h
    · cases h
    next site hsite =>
      have hlen := (List.takeWhile_prefix isTagChar (l := c :: s)).length_le
      have hrest : (c :: s).drop ((c :: s).takeWhile isTagChar).length <+:
          text.drop (start + 1 + ((c :: s).takeWhile isTagChar).length) :=
        prefix_drop_add (prefix_drop_add htext 1) _
      -- Before the attributes the only invocation is the one of the tag itself.
      have hown : Traced settings.marker true text start
          (start + 1 + ((c :: s).takeWhile isTagChar).length)
          (TagState.mk site [] (count + site.toList.length)).invocations := by
        cases site with
        | none => exact Traced.nil
        | some site =>
          obtain ⟨hinvocation, hcanonical⟩ := tagSite_real hsite
          have hreal : (Invocation.mk (String.ofList ((c :: s).takeWhile isTagChar)) site.name
              start).Real settings.marker true text := by
            refine ⟨by rwa [String.toList_ofList], .inl ⟨rfl, ?_⟩⟩
            rw [String.toList_ofList]
            exact (List.cons_prefix_cons.2 ⟨rfl, List.takeWhile_prefix _⟩).trans htext
          simpa [TagState.invocations, hinvocation] using
            Traced.singleton hreal (show start < _ by omega)
      obtain ⟨htraced, hlt, hle⟩ := tagWalk_traced hscan _ _ _ 0 (by omega) hrest hown h
      refine ⟨htraced, by omega, ?_⟩
      simp only [List.length_drop] at hle
      omega

end Tag

/-! ### Calls -/

/-- The element that the first argument names stands at the start of the arguments. -/
theorem isPrefix_of_calledElement? {marker args tag rest : List Char}
    (h : calledElement? marker args = some (tag, rest)) :
    ∃ gap quote : List Char, (∀ c ∈ gap, Text.isSpace c = true) ∧
      quote ∈ [[], ['\''], ['"']] ∧ gap ++ quote ++ tag <+: args := by
  rw [calledElement?] at h
  split at h
  · cases h
  · next c s hargs =>
    obtain ⟨gap, hgap, rfl⟩ := eq_append_of_skipSpace_eq_cons hargs
    split at h
    · next hquote =>
      simp only at h
      split at h
      · simp only [Option.some.injEq, Prod.mk.injEq] at h
        refine ⟨gap, [c], hgap, ?_, ?_⟩
        · simp only [Bool.or_eq_true, decide_eq_true_eq] at hquote
          rcases hquote with rfl | rfl <;> simp
        · rw [List.append_assoc, List.prefix_append_right_inj, ← h.1]
          exact List.cons_prefix_cons.2 ⟨rfl, List.take_prefix _ _⟩
      · cases h
    · split at h
      · simp only [Option.some.injEq, Prod.mk.injEq] at h
        refine ⟨gap, [], hgap, by simp, ?_⟩
        rw [List.append_nil, List.prefix_append_right_inj, ← h.1]
        exact List.takeWhile_prefix _
      · cases h

/-- The arguments of a call are a part of the text behind its parenthesis. -/
theorem callArguments_isPrefix (place : Nat) (s : List Char) : (callArguments place s).1 <+: s := by
  rw [callArguments]
  split
  · exact List.take_prefix _ _
  · exact List.prefix_refl _

private theorem invocation_of_applyObject? {s s' : Site} {body : List Char}
    (h : s.applyObject? body = some s') : s'.invocation = s.invocation := by
  obtain ⟨o, _, rfl⟩ := Option.map_eq_some_iff.1 h
  rfl

/-- A call that has been read goes on, after the name of the factory, with arguments that begin
with the element. -/
theorem callSite_real {settings : ScanSettings} {count start place : Nat} {s : List Char}
    {site : Site} (h : callSite settings count start place s = .ok (some site)) :
    site.start = start ∧ canonicalName? settings.marker site.tag.toList = some site.name.toList ∧
      ∃ gap gap' quote : List Char, (∀ c ∈ gap, Text.isSpace c = true) ∧
        (∀ c ∈ gap', Text.isSpace c = true) ∧ quote ∈ [[], ['\''], ['"']] ∧
          gap ++ '(' :: gap' ++ quote ++ site.tag.toList <+: s := by
  rw [callSite] at h
  split at h
  · next s' hs' =>
    split at h
    next args stop hargs =>
    split at h
    · cases h
    next tag rest htag =>
    split at h
    · cases h
    next name hname =>
    split at h
    · cases h
    next new hnew =>
    -- The props and the end of the site do not matter for what it invokes.
    have hsame : site.invocation = new.invocation := by
      split at h
      · cases h
        rfl
      · split at h
        · cases h
        · next site' happly =>
          cases h
          exact (invocation_of_applyObject? happly).trans rfl
    have hnew' : new.invocation = ⟨String.ofList tag, String.ofList name, start⟩ := by
      rw [newSite] at hnew
      split at hnew
      · cases hnew
      · cases hnew
        rfl
    obtain ⟨htag', hname', hstart'⟩ : site.tag = String.ofList tag ∧
        site.name = String.ofList name ∧ site.start = start := by
      simpa [Site.invocation] using hsame.trans hnew'
    obtain ⟨gap, hgap, hs⟩ := eq_append_of_skipSpace_eq_cons hs'
    obtain ⟨gap', quote, hgap', hquote, hbegin⟩ := isPrefix_of_calledElement? htag
    have hargs' : args <+: s' := by
      have := callArguments_isPrefix (place + Script.spaceLength s + 1) s'
      rwa [hargs] at this
    refine ⟨hstart', by rw [htag', hname', String.toList_ofList, String.toList_ofList, hname],
      gap, gap', quote, hgap, hgap', hquote, ?_⟩
    rw [htag', String.toList_ofList, hs, List.append_assoc, List.append_assoc,
      List.prefix_append_right_inj, List.cons_append, List.cons_prefix_cons, ← List.append_assoc]
    exact ⟨rfl, hbegin.trans hargs'⟩
  · cases h

end ComponentAudit
