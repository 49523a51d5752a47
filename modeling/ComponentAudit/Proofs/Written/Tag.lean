import ComponentAudit.Proofs.Outline
import ComponentAudit.Proofs.Script.Bracket
import ComponentAudit.Proofs.Written.Word

/-!
# Written tags

A start tag is written as `<`, its name, its attributes with a blank before each, and `>` or ` />`.
`readTag_written` says that the reader takes a written tag whole, and that the site of the tag has
the props of the attributes, inserted from left to right, and is marked as spread when one of them
is a spread.

The two flavors of markup differ in how attributes are written. The statements here are about any
way of writing them under which the walk over a tag passes from the first character of an attribute
to its end and notes what the attribute means (`ReadsAttributes`).
-/

namespace ComponentAudit

/-! ### What attributes amount to -/

/-- The prop that an attribute sets. -/
def AttrMeaning.entry? : AttrMeaning → Option (String × PropValue)
  | .prop key value => some (String.ofList key, value)
  | _ => none

/-- The props that attributes set, inserted from left to right: the last one of a name stays. -/
def propsOf (meanings : List AttrMeaning) : Props :=
  NameTable.ofList (meanings.filterMap AttrMeaning.entry?)

/-- The site at which an element with the given tag and attributes starts, if the tag is a component
name. Its end is still to be found. -/
def elementSite (marker tag : List Char) (meanings : List AttrMeaning) (start : Nat) :
    Option Site :=
  (canonicalName? marker tag).map fun name =>
    { tag := String.ofList tag, name := String.ofList name, start, stop := start
      props := propsOf meanings, spread := meanings.contains .spread }

/-- The site of an element is where its tag begins. -/
theorem start_of_elementSite {marker tag : List Char} {meanings : List AttrMeaning} {start : Nat} :
    ∀ s ∈ elementSite marker tag meanings start, s.start = start := by
  intro s hs
  obtain ⟨name, _, rfl⟩ := Option.map_eq_some_iff.1 hs
  rfl

/-- The site with what an attribute says about its props. -/
def Site.applyMeaning (s : Site) : AttrMeaning → Site
  | .prop key value => { s with props := s.props.insert (String.ofList key) value }
  | .spread => { s with spread := true }
  | .ignored => s

private theorem Site.apply?_eq_some {s : Site} {flavor : Flavor} {a : Attribute} {m : AttrMeaning}
    (h : a.meaning? flavor = some m) : s.apply? flavor a = some (s.applyMeaning m) := by
  unfold Site.apply?
  rw [h]
  cases m <;> rfl

/-- Attributes applied one by one amount to their props and their spread. -/
theorem Site.foldl_applyMeaning (meanings : List AttrMeaning) :
    ∀ s : Site, meanings.foldl Site.applyMeaning s =
      { s with
        props := s.props.insertAll (meanings.filterMap AttrMeaning.entry?)
        spread := s.spread || meanings.contains .spread } := by
  induction meanings with
  | nil => intro s; simp [NameTable.insertAll]
  | cons m meanings ih =>
    intro s
    rw [List.foldl_cons, ih]
    cases m <;>
      simp [Site.applyMeaning, List.filterMap_cons, AttrMeaning.entry?, NameTable.insertAll]

/-- The state of a walk over a tag with one more attribute. -/
def TagState.apply (st : TagState) (m : AttrMeaning) : TagState :=
  { st with site := st.site.map (·.applyMeaning m) }

/-- The attributes of a tag change its site and nothing else. -/
theorem TagState.foldl_apply (meanings : List AttrMeaning) :
    ∀ st : TagState, meanings.foldl TagState.apply st =
      { st with site := st.site.map fun s => meanings.foldl Site.applyMeaning s } := by
  induction meanings with
  | nil => intro st; simp
  | cons m meanings ih =>
    intro st
    rw [List.foldl_cons, ih]
    simp [TagState.apply, Function.comp_def]

/-- An attribute in whose value no site is found only changes the site of the tag. -/
theorem TagState.addAttribute_eq_apply {st : TagState} {flavor : Flavor} {scan : InnerScan}
    {place : Nat} {a : Attribute} {m : AttrMeaning} (hm : a.meaning? flavor = some m)
    (hscan : ∀ e, flavor = .jsx → a.value = .expr e →
      scan st.count ⟨place + a.valueStart, some '\x7b', e⟩ = .ok []) :
    st.addAttribute flavor scan place a = .ok (st.apply m) := by
  simp only [TagState.addAttribute]
  split
  · next e he =>
    split at he
    · next e' hvalue => rw [hscan e' rfl hvalue] at he; cases he
    · cases he
  · next found hfound =>
    obtain rfl : found = [] := by
      split at hfound
      · next e hvalue => rw [hscan e rfl hvalue] at hfound; cases hfound; rfl
      · cases hfound; rfl
    cases hsite : st.site with
    | none => simp [TagState.apply, hsite]
    | some s => simp [TagState.apply, hsite, Site.apply?_eq_some hm]

/-! ### Reading one attribute -/

/-- What follows an attribute: it does not continue the name, and is no `=` after blanks. -/
def EndsAttribute (rest : List Char) : Prop :=
  rest.takeWhile isAttrChar = [] ∧ (Script.skipSpace rest).head? ≠ some '='

section Attribute

variable {flavor : Flavor} {name : List Char}

private theorem takeWhile_attrName (hname : ∀ c ∈ name, isAttrChar c = true) (rest : List Char) :
    (name ++ '=' :: rest).takeWhile isAttrChar = name := by
  rw [List.takeWhile_append_of_pos hname]
  simp [show isAttrChar '=' = false by decide]

/-- An attribute without a value. -/
theorem readAttribute?_bare (hname : ∀ c ∈ name, isAttrChar c = true) {rest : List Char}
    (hrest : EndsAttribute rest) :
    readAttribute? flavor (name ++ rest) =
      some { name, value := .bare, valueStart := name.length, length := name.length } := by
  have htake : (name ++ rest).takeWhile isAttrChar = name := by
    rw [List.takeWhile_append_of_pos hname, hrest.1, List.append_nil]
  rw [readAttribute?, htake, List.drop_left, drop_spaceLength]
  split
  · next value hvalue => exact absurd (congrArg List.head? hvalue) hrest.2
  · rfl

/-- A value that is read right after the `=`. -/
theorem readAttribute?_value (hname : ∀ c ∈ name, isAttrChar c = true) {rest : List Char}
    {v : AttrValue} {before length : Nat} (hspace : Script.spaceLength rest = 0)
    (hread : readValue? flavor rest = some (v, before, length)) :
    readAttribute? flavor (name ++ '=' :: rest) =
      some { name, value := v, valueStart := name.length + 1 + before
             length := name.length + 1 + length } := by
  have hgap : Script.spaceLength ('=' :: rest) = 0 := by
    simp [Script.spaceLength, show Text.isSpace '=' = false by decide]
  have hskip : Script.skipSpace rest = rest := by
    rw [← drop_spaceLength, hspace, List.drop_zero]
  rw [readAttribute?, takeWhile_attrName hname, List.drop_left, hgap, List.drop_zero]
  simp only [hskip, hread, hspace, Option.map_some, Nat.add_zero]

/-- An attribute with a value in quotes. -/
theorem readAttribute?_quoted (hname : ∀ c ∈ name, isAttrChar c = true) {quote : Char}
    {value : List Char} (hquote : quote = '"' ∨ quote = '\'') (hvalue : quote ∉ value)
    (rest : List Char) :
    readAttribute? flavor (name ++ '=' :: quote :: (value ++ quote :: rest)) =
      some { name, value := .text value, valueStart := name.length + 1 + 1
             length := name.length + (value.length + 3) } := by
  rw [show name.length + (value.length + 3) = name.length + 1 + (value.length + 2) by omega]
  refine readAttribute?_value hname ?_ ?_
  · rcases hquote with rfl | rfl <;> rfl
  · have hor : (decide (quote = '"') || decide (quote = '\'')) = true := by simpa using hquote
    rw [readValue?.eq_def]
    simp only [hor, if_true, Text.findChar?_append hvalue, Option.map_some, List.take_left]

/-- An attribute with an expression in braces. -/
theorem readAttribute?_braced (hname : ∀ c ∈ name, isAttrChar c = true) {e rest : List Char}
    (hclose : Script.closeLength? '\x7b' (e ++ '\x7d' :: rest) = some e.length) :
    readAttribute? flavor (name ++ '=' :: '\x7b' :: (e ++ '\x7d' :: rest)) =
      some { name, value := .expr e, valueStart := name.length + 1 + 1
             length := name.length + (e.length + 3) } := by
  rw [show name.length + (e.length + 3) = name.length + 1 + (e.length + 2) by omega]
  refine readAttribute?_value hname rfl ?_
  rw [readValue?.eq_def]
  simp [hclose]

/-! ### Walking over one attribute -/

theorem isAttrStart_of_isAlpha {c : Char} (h : c.isAlpha = true) : isAttrStart c = true := by
  simp [isAttrStart, Script.isIdentStart, h]

theorem isSpace_eq_false_of_isAttrStart {c : Char} (h : isAttrStart c = true) :
    Text.isSpace c = false := by
  refine Bool.eq_false_iff.2 fun hspace => ?_
  simp only [Text.isSpace, Bool.or_eq_true, decide_eq_true_eq] at hspace
  rcases hspace with (((rfl | rfl) | rfl) | rfl) | rfl <;> revert h <;> decide

private theorem tagPart_attribute {c : Char} {rest : List Char} {a : Attribute}
    (hc : isAttrStart c = true) (h : readAttribute? flavor (c :: rest) = some a) :
    tagPart flavor c rest = .attribute a := by
  have hslash : c ≠ '/' := Written.ne_of_class hc (by decide)
  have hgt : c ≠ '>' := Written.ne_of_class hc (by decide)
  have hbrace : c ≠ '\x7b' := Written.ne_of_class hc (by decide)
  rw [tagPart, Script.commentLength?_eq_none hslash]
  simp [isSpace_eq_false_of_isAttrStart hc, hslash, hgt, hbrace, hc, h]

variable {scan : InnerScan}

/-- Characters to be passed over are passed over. -/
theorem tagWalk_skip (st : TagState) (skipped rest : List Char) :
    ∀ place : Nat, tagWalk flavor scan name st place skipped.length (skipped ++ rest) =
      tagWalk flavor scan name st (place + skipped.length) 0 rest := by
  induction skipped with
  | nil => intro place; rfl
  | cons c skipped ih =>
    intro place
    rw [List.length_cons, List.cons_append, tagWalk, ih, Nat.add_right_comm, Nat.add_assoc]

/-- An attribute that is read to its end is passed over, and its meaning noted. -/
theorem tagWalk_attribute {st : TagState} {place : Nat} {text rest : List Char} {a : Attribute}
    {m : AttrMeaning} (hhead : text.head?.any isAttrStart = true)
    (hread : readAttribute? flavor (text ++ rest) = some a) (hlength : a.length = text.length)
    (hm : a.meaning? flavor = some m)
    (hscan : ∀ e, flavor = .jsx → a.value = .expr e →
      scan st.count ⟨place + a.valueStart, some '\x7b', e⟩ = .ok []) :
    tagWalk flavor scan name st place 0 (text ++ rest) =
      tagWalk flavor scan name (st.apply m) (place + text.length) 0 rest := by
  obtain ⟨c, text, rfl⟩ : ∃ c t, text = c :: t := by
    cases text with
    | nil => simp at hhead
    | cons c t => exact ⟨c, t, rfl⟩
  have hc : isAttrStart c = true := by simpa using hhead
  rw [List.cons_append] at hread ⊢
  rw [tagWalk, tagPart_attribute hc hread]
  simp only [TagState.addAttribute_eq_apply hm hscan, hlength, List.length_cons,
    Nat.add_sub_cancel]
  rw [tagWalk_skip, Nat.add_assoc, Nat.add_comm 1]

private theorem tagWalk_space (st : TagState) (place : Nat) (rest : List Char) :
    tagWalk flavor scan name st place 0 (' ' :: rest) =
      tagWalk flavor scan name st (place + 1) 0 rest := by
  rw [tagWalk, tagPart]
  rfl

end Attribute

/-! ### Whole tags -/

/-- A way of writing attributes that the walk over a tag understands: it passes over a written
attribute and notes its meaning. -/
structure ReadsAttributes (flavor : Flavor) (scan : InnerScan) {A : Type} (print : A → List Char)
    (meaning : A → AttrMeaning) : Prop where
  starts : ∀ a, ∃ c text, print a = c :: text ∧ Text.isSpace c = false ∧ c ≠ '='
  walks : ∀ (a : A) (name : List Char) (st : TagState) (place : Nat) (rest : List Char),
    EndsAttribute rest → tagWalk flavor scan name st place 0 (print a ++ rest) =
      tagWalk flavor scan name (st.apply (meaning a)) (place + (print a).length) 0 rest

/-- Attributes as they follow the name of a tag. -/
def attributesText {A : Type} (print : A → List Char) (attrs : List A) : List Char :=
  attrs.flatMap fun a => ' ' :: print a

/-- The end of a tag. -/
def tagEnd : (selfClosing : Bool) → List Char
  | false => ['>']
  | true => [' ', '/', '>']

/-- A start tag without its `<`. -/
def tagText {A : Type} (print : A → List Char) (tag : Written.Name) (attrs : List A)
    (selfClosing : Bool) : List Char :=
  tag.chars ++ attributesText print attrs ++ tagEnd selfClosing

/-- The closing tag of an element, or of a fragment when the name is empty. -/
def closingTag (name : List Char) : List Char := '<' :: '/' :: (name ++ ['>'])

section Tag

variable {flavor : Flavor} {scan : InnerScan} {A : Type} {print : A → List Char}
  {meaning : A → AttrMeaning}

private theorem endsAttribute_tagEnd (selfClosing : Bool) (rest : List Char) :
    EndsAttribute (tagEnd selfClosing ++ rest) := by
  cases selfClosing with
  | false => exact ⟨rfl, show some '>' ≠ some '=' by decide⟩
  | true => exact ⟨rfl, show some '/' ≠ some '=' by decide⟩

private theorem ReadsAttributes.endsAttribute (h : ReadsAttributes flavor scan print meaning)
    (a : A) (rest : List Char) : EndsAttribute (' ' :: (print a ++ rest)) := by
  obtain ⟨c, text, htext, hspace, hne⟩ := h.starts a
  refine ⟨by simp [show isAttrChar ' ' = false by decide], ?_⟩
  simp [htext, Script.skipSpace, hspace, hne, show Text.isSpace ' ' = true by decide]

/-- Nothing that may follow a tag name or an attribute continues the attribute. -/
theorem ReadsAttributes.endsAttribute_rest (h : ReadsAttributes flavor scan print meaning)
    (attrs : List A) (selfClosing : Bool) (rest : List Char) :
    EndsAttribute (attributesText print attrs ++ (tagEnd selfClosing ++ rest)) := by
  cases attrs with
  | nil => exact endsAttribute_tagEnd selfClosing rest
  | cons a attrs => simpa [attributesText] using h.endsAttribute a _

/-- The end of a tag. -/
theorem tagWalk_tagEnd (name : List Char) (st : TagState) (place : Nat) (selfClosing : Bool)
    (rest : List Char) :
    tagWalk flavor scan name st place 0 (tagEnd selfClosing ++ rest) =
      .ok (some ⟨name, st.site, st.inner, selfClosing,
        place + (tagEnd selfClosing).length⟩) := by
  cases selfClosing with
  | false => cases flavor <;> rfl
  | true =>
    rw [tagEnd, List.cons_append, tagWalk_space]
    cases flavor <;> rfl

/-- The walk reads written attributes to the end of the tag. -/
theorem tagWalk_attributes (h : ReadsAttributes flavor scan print meaning) (name : List Char)
    (selfClosing : Bool) (rest : List Char) (attrs : List A) :
    ∀ (st : TagState) (place : Nat),
      tagWalk flavor scan name st place 0
          (attributesText print attrs ++ (tagEnd selfClosing ++ rest)) =
        .ok (some ⟨name, ((attrs.map meaning).foldl TagState.apply st).site, st.inner, selfClosing,
          place + (attributesText print attrs ++ tagEnd selfClosing).length⟩) := by
  induction attrs with
  | nil => exact fun st place => tagWalk_tagEnd name st place selfClosing rest
  | cons a attrs ih =>
    intro st place
    have hsplit : attributesText print (a :: attrs) ++ (tagEnd selfClosing ++ rest) =
        ' ' :: (print a ++ (attributesText print attrs ++ (tagEnd selfClosing ++ rest))) := by
      simp [attributesText]
    -- A blank or the end of the tag follows, so the attribute is not read any further.
    rw [hsplit, tagWalk_space, h.walks a _ _ _ _ (h.endsAttribute_rest attrs selfClosing rest), ih]
    simp [attributesText, TagState.apply]
    omega

private theorem endsTagName_attributesText (print : A → List Char) (attrs : List A)
    (selfClosing : Bool) (rest : List Char) :
    endsTagName (attributesText print attrs ++ (tagEnd selfClosing ++ rest)) = true := by
  cases attrs with
  | nil => cases selfClosing <;> rfl
  | cons a attrs => rfl

private theorem takeWhile_isTagChar_of_endsTagName {rest : List Char}
    (h : endsTagName rest = true) :
    rest.takeWhile isTagChar = [] := by
  cases rest with
  | nil => rfl
  | cons c rest =>
    have hc : isTagChar c = false := by
      simp only [endsTagName, Text.isSpace, Bool.or_eq_true, decide_eq_true_eq] at h
      rcases h with (rfl | rfl) | (((rfl | rfl) | rfl) | rfl) | rfl <;> decide
    simp [hc]

/-- The attributes of a tag, applied one by one to its bare site. -/
theorem elementSite_foldl (marker name : List Char) (start count : Nat) (inner : List Site)
    (meanings : List AttrMeaning) :
    (meanings.foldl TagState.apply ⟨elementSite marker name [] start, inner, count⟩).site =
      elementSite marker name meanings start := by
  rw [TagState.foldl_apply]
  simp only [elementSite, Option.map_map, Function.comp_def, Site.foldl_applyMeaning]
  rfl

private theorem tagSite_written {settings : ScanSettings} {count start : Nat} {name : List Char}
    {meanings : List AttrMeaning}
    (hcount : count + (elementSite settings.marker name meanings start).toList.length ≤
      settings.maxSites) :
    tagSite settings count name start = .ok (elementSite settings.marker name [] start) := by
  rw [tagSite]
  cases hname : canonicalName? settings.marker name with
  | none => simp [elementSite, hname]
  | some canonical =>
    have hlt : ¬ settings.maxSites ≤ count := by
      rw [elementSite, hname, Option.map_some, Option.toList_some, List.length_singleton] at hcount
      omega
    simp [elementSite, hname, newSite, hlt, Except.map, propsOf, NameTable.ofList,
      NameTable.insertAll]
    rfl

/-- The reader takes a written tag whole. Its site has the props of its attributes. -/
theorem readTag_written (h : ReadsAttributes flavor scan print meaning) {settings : ScanSettings}
    {count start : Nat} {tag : Written.Name} {attrs : List A}
    (hcount : count +
      (elementSite settings.marker tag.chars (attrs.map meaning) start).toList.length ≤
        settings.maxSites) (selfClosing : Bool) (rest : List Char) :
    readTag settings flavor scan count start (tagText print tag attrs selfClosing ++ rest) =
      .ok (some ⟨tag.chars, elementSite settings.marker tag.chars (attrs.map meaning) start, [],
        selfClosing, start + 1 + (tagText print tag attrs selfClosing).length⟩) := by
  have hends := endsTagName_attributesText print attrs selfClosing rest
  have hname : (tag.chars ++ (attributesText print attrs ++ (tagEnd selfClosing ++ rest))).takeWhile
      isTagChar = tag.chars :=
    tag.takeWhile_chars tag.isTagChar_of_mem_name (takeWhile_isTagChar_of_endsTagName hends)
  have hhead : tag.head ≠ '>' := Written.ne_of_class tag.head_first (by decide)
  rw [Written.Word.chars, List.cons_append] at hname
  rw [tagText, List.append_assoc, List.append_assoc, Written.Word.chars, List.cons_append, readTag,
    hname]
  simp only [hhead, tag.head_first, hends, decide_false, Bool.false_and, Bool.false_eq_true,
    if_false, Bool.not_true, ← List.cons_append, List.drop_left]
  rw [← Written.Word.chars, tagSite_written hcount]
  simp only [tagWalk_attributes h, elementSite_foldl]
  simp only [List.length_append]
  congr 3
  omega

end Tag

/-! ### Closing tags -/

private theorem isSpace_eq_false_of_isTagChar {c : Char} (h : isTagChar c = true) :
    Text.isSpace c = false := by
  refine Bool.eq_false_iff.2 fun hspace => ?_
  simp only [Text.isSpace, Bool.or_eq_true, decide_eq_true_eq] at hspace
  rcases hspace with (((rfl | rfl) | rfl) | rfl) | rfl <;> revert h <;> decide

section TagName

variable {tag : List Char} (h : ∀ c ∈ tag, isTagChar c = true) (rest : List Char)

include h

private theorem takeWhile_isSpace_tagName : (tag ++ '>' :: rest).takeWhile Text.isSpace = [] := by
  cases tag with
  | nil => rfl
  | cons c tag => simp [isSpace_eq_false_of_isTagChar (h c List.mem_cons_self)]

/-- There is no blank before the name of a tag. -/
theorem spaceLength_tagName : Script.spaceLength (tag ++ '>' :: rest) = 0 := by
  rw [Script.spaceLength, takeWhile_isSpace_tagName h, List.length_nil]

/-- Nothing is skipped before it. -/
theorem skipSpace_tagName : Script.skipSpace (tag ++ '>' :: rest) = tag ++ '>' :: rest := by
  rw [← drop_spaceLength, spaceLength_tagName h, List.drop_zero]

/-- The name goes up to its `>`. -/
theorem takeWhile_tagName : (tag ++ '>' :: rest).takeWhile isTagChar = tag := by
  rw [List.takeWhile_append_of_pos h]
  simp [show isTagChar '>' = false by decide]

end TagName

end ComponentAudit
