import ComponentAudit.Proofs.Written.Path
import ComponentAudit.Proofs.Written.Tag

/-!
# Written templates

Template markup as a tree: texts, comments, and elements with attributes and children. The tree
says how it is written (`Forest.print`) and how its catalog elements nest (`Forest.outline`), both
by recursion over the tree and without any scan.

Extraction from the written tree gives exactly the usages of the outline. The walk over the markup
is in step with the tree: whatever is open around a forest, the walk over its text records the sites
of its outline and leaves everything else as it was (`markupWalk_print`).
-/

namespace ComponentAudit.Written.Template

/-! ### Attributes -/

/-- The name of a prop: a name that is no directive. -/
structure Key where
  name : Name
  notDirective : ¬ ['v', '-'] <+: name.chars

/-- The characters of a directive without an argument. -/
def isDirectiveChar (c : Char) : Bool := isAttrChar c && c ≠ ':'

/-- An attribute of an element. -/
inductive Attribute where
  /-- A prop with its text. -/
  | text (key : Key) (value : PlainText ['"'])
  /-- A prop that is switched on. -/
  | bare (key : Key)
  /-- A prop bound to a path. -/
  | bound (key : Key) (path : MemberPath)
  /-- An event handled by a path. -/
  | event (key : Key) (path : MemberPath)
  /-- A path bound as a whole. -/
  | spread (path : MemberPath)
  /-- Another directive, without an argument but possibly with modifiers. -/
  | directive (name : Word isDirectiveChar isDirectiveChar)
    (notBind : name.chars ≠ "bind".toList) (value : PlainText ['"'])

namespace Attribute

/-- The name as written, with its marks. -/
def label : Attribute → List Char
  | .text key _ => key.name.chars
  | .bare key => key.name.chars
  | .bound key _ => ':' :: key.name.chars
  | .event key _ => '@' :: key.name.chars
  | .spread _ => ['v', '-', 'b', 'i', 'n', 'd']
  | .directive name _ _ => 'v' :: '-' :: name.chars

/-- The text between the quotes, if there is one. -/
def quoted? : Attribute → Option (List Char)
  | .text _ value => some value.chars
  | .bare _ => none
  | .bound _ path => some path.chars
  | .event _ path => some path.chars
  | .spread path => some path.chars
  | .directive _ _ value => some value.chars

/-- What follows the name of an attribute. -/
def assignment : Option (List Char) → List Char
  | none => []
  | some value => '=' :: '"' :: (value ++ ['"'])

/-- The text of an attribute. -/
def print (a : Attribute) : List Char := a.label ++ assignment a.quoted?

/-- What an attribute means for the props of its element. -/
def meaning : Attribute → AttrMeaning
  | .text key value => .prop key.name.chars (.string (String.ofList value.chars))
  | .bare key => .prop key.name.chars (.bool true)
  | .bound key path => .prop key.name.chars (.reference (String.ofList path.chars))
  | .event key path => .prop ('o' :: 'n' :: key.name.chars) (.reference (String.ofList path.chars))
  | .spread _ => .spread
  | .directive _ _ _ => .ignored

end Attribute

/-! ### Forests -/

/-- The name of an element with ordinary content: it is neither `script` nor `style` nor a void
element, in whatever case it is written. -/
structure ElementName where
  name : Name
  hasContent :
    name.chars.map Text.lowerAscii ∉ "script".toList :: "style".toList :: voidElements

/-- Nodes that follow one another. Every node comes with the nodes after it. -/
inductive Forest where
  | nil
  | text (t : PlainText ['<']) (next : Forest)
  | comment (c : PlainText ['-', '>']) (next : Forest)
  | element (name : ElementName) (attrs : List Attribute) (children next : Forest)
  /-- An element without children, closed by its own tag. -/
  | closed (name : ElementName) (attrs : List Attribute) (next : Forest)

/-- The start tag of an element. -/
def startTag (name : ElementName) (attrs : List Attribute) (selfClosing : Bool) : List Char :=
  '<' :: tagText Attribute.print name.name attrs selfClosing

namespace Forest

/-- The text of a forest. -/
def print : Forest → List Char
  | .nil => []
  | .text t next => t.chars ++ next.print
  | .comment c next =>
    ['<', '!', '-', '-'] ++ c.chars ++ ['-', '-', '>'] ++ next.print
  | .element name attrs children next =>
    startTag name attrs false ++ children.print ++ closingTag name.name.chars ++ next.print
  | .closed name attrs next => startTag name attrs true ++ next.print

/-- The outline of the catalog elements of a forest whose text begins at the given place. -/
def outline (marker : List Char) (place : Nat) : Forest → Outline
  | .nil => .empty
  | .text t next => next.outline marker (place + t.chars.length)
  | .comment c next => next.outline marker (place + (c.chars.length + 7))
  | .element name attrs children next =>
    let body := place + (startTag name attrs false).length
    let stop := body + children.print.length + (closingTag name.name.chars).length
    .join (.enclose (elementSite marker name.name.chars (attrs.map Attribute.meaning) place) stop
        (children.outline marker body))
      (next.outline marker stop)
  | .closed name attrs next =>
    let stop := place + (startTag name attrs true).length
    .join (.enclose (elementSite marker name.name.chars (attrs.map Attribute.meaning) place) stop
        .empty)
      (next.outline marker stop)

end Forest

/-! ### Attributes are read -/

private theorem stripStart?_eq_none {start s : List Char} {c : Char} (hc : c ∈ start) (hs : c ∉ s) :
    Text.stripStart? start s = none := by
  refine Option.eq_none_iff_forall_ne_some.2 fun rest h => hs ?_
  rw [Text.stripStart?_eq_some_iff.1 h]
  exact List.mem_append_left rest hc

private theorem eventName?_eq_none {attr : List Char} (hat : attr.head? ≠ some '@')
    (hcolon : ':' ∉ attr) : eventName? attr = none := by
  have hstrip : Text.stripStart? ['@'] attr = none := by
    refine Option.eq_none_iff_forall_ne_some.2 fun rest h => hat ?_
    rw [Text.stripStart?_eq_some_iff.1 h]
    rfl
  rw [eventName?, hstrip, stripStart?_eq_none (c := ':') (by decide) hcolon,
    stripStart?_eq_none (c := ':') (by decide) hcolon]
  rfl

private theorem boundName?_eq_none {attr : List Char} (hcolon : ':' ∉ attr) :
    boundName? attr = none := by
  rw [boundName?, stripStart?_eq_none (c := ':') (by decide) hcolon,
    stripStart?_eq_none (c := ':') (by decide) hcolon]
  rfl

private theorem withoutModifiers_name (name : Name) : withoutModifiers name.chars = name.chars := by
  have h : ∀ c ∈ name.chars, decide (c ≠ '.') = true := by
    intro c hc
    simpa using fun hdot => name.not_mem_name (by decide) (hdot ▸ hc)
  simpa [withoutModifiers] using name.takeWhile_chars h List.takeWhile_nil

/-- A name that is no directive is the name of a prop. -/
theorem markupMeaning?_key (key : Key) (value : AttrValue) :
    markupMeaning? key.name.chars value = (plainValue? value).map (.prop key.name.chars) := by
  have hat : key.name.chars.head? ≠ some '@' := fun h =>
    key.name.not_mem_name (by decide) (List.mem_of_mem_head? h)
  have hcolon : ':' ∉ key.name.chars := key.name.not_mem_name (by decide)
  have hhash : '#' ∉ key.name.chars := key.name.not_mem_name (by decide)
  have hbind : key.name.chars ≠ "v-bind".toList := fun h =>
    key.notDirective (h ▸ ⟨"bind".toList, rfl⟩)
  have hdirective : isDirective key.name.chars = false := by
    have hv : Text.startsWith "v-".toList key.name.chars = false :=
      Bool.eq_false_iff.2 fun h => key.notDirective (Text.startsWith_iff_isPrefix.1 h)
    have hh : Text.startsWith ['#'] key.name.chars = false := by
      rw [Text.startsWith, stripStart?_eq_none (c := '#') (by decide) hhash]
      rfl
    rw [isDirective, hv, hh]
    simpa using hcolon
  rw [markupMeaning?, if_neg hbind, eventName?_eq_none hat hcolon, boundName?_eq_none hcolon]
  simp only [hdirective, Bool.false_eq_true, if_false]

namespace Attribute

private theorem isAttrChar_of_mem_label (a : Attribute) : ∀ c ∈ a.label, isAttrChar c = true := by
  have hmarked : ∀ marks s : List Char, (∀ c ∈ marks, isAttrChar c = true) →
      (∀ c ∈ s, isAttrChar c = true) → ∀ c ∈ marks ++ s, isAttrChar c = true := by
    intro marks s hmarks hs c hc
    exact (List.mem_append.1 hc).elim (hmarks c) (hs c)
  cases a with
  | text key value => exact key.name.isAttrChar_of_mem_name
  | bare key => exact key.name.isAttrChar_of_mem_name
  | bound key path => exact hmarked [':'] _ (List.all_eq_true.1 rfl) key.name.isAttrChar_of_mem_name
  | event key path => exact hmarked ['@'] _ (List.all_eq_true.1 rfl) key.name.isAttrChar_of_mem_name
  | spread path =>
    exact List.all_eq_true.1 (show ['v', '-', 'b', 'i', 'n', 'd'].all isAttrChar = true from rfl)
  | directive name notBind value =>
    have hname : ∀ c, isDirectiveChar c = true → isAttrChar c = true :=
      fun _ h => (Bool.and_eq_true_iff.1 h).1
    exact hmarked ['v', '-'] _ (List.all_eq_true.1 rfl) (name.forall_mem_chars hname hname)

private theorem label_eq_cons (a : Attribute) : ∃ c s, a.label = c :: s ∧ isAttrStart c = true := by
  cases a with
  | text key value => exact ⟨_, _, rfl, isAttrStart_of_isAlpha key.name.head_first⟩
  | bare key => exact ⟨_, _, rfl, isAttrStart_of_isAlpha key.name.head_first⟩
  | bound key path => exact ⟨_, _, rfl, by decide⟩
  | event key path => exact ⟨_, _, rfl, by decide⟩
  | spread path => exact ⟨_, _, rfl, by decide⟩
  | directive name notBind value => exact ⟨_, _, rfl, by decide⟩

private theorem not_mem_quoted (a : Attribute) {value : List Char} (h : a.quoted? = some value) :
    '"' ∉ value := by
  cases a with
  | text key value => cases h; exact value.avoids '"' (by decide)
  | bare key => cases h
  | bound key path => cases h; exact path.not_mem_chars (by decide)
  | event key path => cases h; exact path.not_mem_chars (by decide)
  | spread path => cases h; exact path.not_mem_chars (by decide)
  | directive name notBind value => cases h; exact value.avoids '"' (by decide)

/-- The value of an attribute as it is read. -/
def value (a : Attribute) : AttrValue :=
  match a.quoted? with
  | none => .bare
  | some value => .text value

/-- Every attribute is read with its meaning. -/
theorem markupMeaning?_label (a : Attribute) :
    markupMeaning? a.label a.value = some a.meaning := by
  cases a with
  | text key value => rw [label, markupMeaning?_key]; rfl
  | bare key => rw [label, markupMeaning?_key]; rfl
  | bound key path =>
    have hne : ':' :: key.name.chars ≠ "v-bind".toList := by simp
    have hevent : eventName? (':' :: key.name.chars) = none := by
      simp [eventName?, Text.stripStart?]
    have hbound : boundName? (':' :: key.name.chars) = some key.name.chars := by
      simp [boundName?, Text.stripStart?]
    rw [label, markupMeaning?, if_neg hne, hevent, hbound]
    simp [value, quoted?, boundValue?, path.classify_chars, withoutModifiers_name, meaning]
  | event key path =>
    have hne : '@' :: key.name.chars ≠ "v-bind".toList := by simp
    have hevent : eventName? ('@' :: key.name.chars) = some key.name.chars := by
      simp [eventName?, Text.stripStart?]
    rw [label, markupMeaning?, if_neg hne, hevent]
    simp [value, quoted?, boundValue?, path.classify_chars, withoutModifiers_name, meaning]
  | spread path => rw [label, markupMeaning?, if_pos (by decide)]; rfl
  | directive name notBind value =>
    have hat : ('v' :: '-' :: name.chars).head? ≠ some '@' := by simp
    -- A directive must not be taken for a bound attribute, so its name may hold no colon.
    have hcolon : ':' ∉ 'v' :: '-' :: name.chars := by
      intro hmem
      have hmem : ':' ∈ name.chars := by simpa using hmem
      have hclass := name.forall_mem_chars (fun _ h => h) (fun _ h => h) ':' hmem
      exact absurd hclass (by decide)
    have hne : 'v' :: '-' :: name.chars ≠ "v-bind".toList := by simpa using notBind
    have hdirective : isDirective ('v' :: '-' :: name.chars) = true := by
      simp [isDirective, Text.startsWith, Text.stripStart?]
    rw [label, markupMeaning?, if_neg hne, eventName?_eq_none hat hcolon, boundName?_eq_none hcolon]
    simp only [hdirective, if_true, meaning]

/-- The walk over a tag understands written attributes. -/
theorem reads (scan : InnerScan) : ReadsAttributes .markup scan print meaning where
  starts a := by
    obtain ⟨c, s, hlabel, hc⟩ := a.label_eq_cons
    refine ⟨c, s ++ assignment a.quoted?, by rw [print, hlabel, List.cons_append], ?_⟩
    exact ⟨isSpace_eq_false_of_isAttrStart hc, ne_of_class hc (by decide)⟩
  walks a name st place rest hrest := by
    obtain ⟨c, s, hlabel, hc⟩ := a.label_eq_cons
    have hhead : a.print.head?.any isAttrStart = true := by simp [print, hlabel, hc]
    have hname := a.isAttrChar_of_mem_label
    have hmeaning := a.markupMeaning?_label
    have hread : ∃ before, readAttribute? .markup (a.print ++ rest) =
        some ⟨a.label, a.value, before, a.print.length⟩ := by
      rw [print, value, List.append_assoc]
      cases hquoted : a.quoted? with
      | none => exact ⟨_, by simpa [assignment] using readAttribute?_bare hname hrest⟩
      | some value =>
        have hvalue := a.not_mem_quoted hquoted
        exact ⟨_, by simpa [assignment] using
          readAttribute?_quoted hname (.inl rfl) hvalue rest⟩
    obtain ⟨before, hread⟩ := hread
    exact tagWalk_attribute hhead hread rfl hmeaning fun _ h => by cases h

end Attribute

/-! ### Outlines lie within their text -/

/-- A start tag is not empty. -/
theorem length_startTag_pos (name : ElementName) (attrs : List Attribute) (selfClosing : Bool) :
    0 < (startTag name attrs selfClosing).length := by
  simp [startTag]

/-- The components of a forest are within its text. -/
theorem Forest.within_outline (marker : List Char) (f : Forest) :
    ∀ place : Nat, (f.outline marker place).Within place (place + f.print.length) := by
  induction f with
  | nil => intro place; exact Nat.le_refl _
  | text t next ih =>
    intro place
    refine (ih (place + t.chars.length)).mono (Nat.le_add_right _ _) ?_
    simp only [print, List.length_append]
    omega
  | comment c next ih =>
    intro place
    refine (ih (place + (c.chars.length + 7))).mono (Nat.le_add_right _ _) ?_
    simp [print]
    omega
  | element name attrs children next ihchildren ihnext =>
    intro place
    have htag := length_startTag_pos name attrs false
    refine ⟨_, (ihchildren _).enclose start_of_elementSite (Nat.lt_add_of_pos_right htag)
      (Nat.le_add_right _ _), (ihnext _).mono (Nat.le_refl _) ?_⟩
    simp only [print, List.length_append]
    omega
  | closed name attrs next ih =>
    intro place
    have htag := length_startTag_pos name attrs true
    have hempty : Outline.empty.Within (place + (startTag name attrs true).length)
        (place + (startTag name attrs true).length) := Nat.le_refl _
    refine ⟨_, hempty.enclose start_of_elementSite (Nat.lt_add_of_pos_right htag)
      (Nat.le_refl _), (ih _).mono (Nat.le_refl _) ?_⟩
    simp only [print, List.length_append]
    omega

/-! ### States of the walk -/

/-- The state after the start tag of an element. -/
def entered (st : MarkupState) (tag : List Char) (site : Option Site) : MarkupState :=
  { st with elements := ⟨tag, site, []⟩ :: st.elements, count := st.count + site.toList.length }

private theorem record_nil (st : MarkupState) : st.record [] = st := by
  obtain ⟨elements, found, count⟩ := st
  cases elements <;> rfl

private theorem record_record (st : MarkupState) (a b : List Site) :
    (st.record a).record b = st.record (b ++ a) := by
  obtain ⟨elements, found, count⟩ := st
  cases elements <;>
    simp [MarkupState.record, MarkupState.place, Nat.add_assoc, Nat.add_comm a.length]

/-- An element that is closed again leaves its sites, and nothing else. -/
theorem place_of_entered (st : MarkupState) (tag : List Char) (site : Option Site)
    (inner : List Site) (stop : Nat) :
    MarkupState.place { (entered st tag site).record inner with elements := st.elements }
        (inner ++ (site.map fun s => s.endingAt stop).toList) =
      st.record (inner ++ (site.map fun s => s.endingAt stop).toList) := by
  obtain ⟨elements, found, count⟩ := st
  cases elements <;>
    simp [entered, MarkupState.record, MarkupState.place, Nat.add_assoc,
      Nat.add_comm inner.length, Option.toList_map]

/-! ### The walk over markup -/

section Walk

variable {settings : ScanSettings} {script : Bool → InnerScan}

/-- Characters to be passed over are passed over. -/
theorem markupWalk_skip (st : MarkupState) (skipped rest : List Char) :
    ∀ place : Nat, markupWalk settings script st place skipped.length (skipped ++ rest) =
      markupWalk settings script st (place + skipped.length) 0 rest := by
  induction skipped with
  | nil => intro place; rfl
  | cons c skipped ih =>
    intro place
    rw [List.length_cons, List.cons_append, markupWalk, ih, Nat.add_right_comm, Nat.add_assoc]

/-- Text without a tag is passed over. -/
theorem markupWalk_text {t : List Char} (h : '<' ∉ t) (st : MarkupState) (rest : List Char) :
    ∀ place : Nat, markupWalk settings script st place 0 (t ++ rest) =
      markupWalk settings script st (place + t.length) 0 rest := by
  induction t with
  | nil => intro place; rfl
  | cons c t ih =>
    intro place
    obtain ⟨hc, ht⟩ := List.ne_and_not_mem_of_not_mem_cons h
    rw [List.cons_append, markupWalk, if_neg hc.symm, ih ht, List.length_cons, Nat.add_right_comm,
      Nat.add_assoc]

/-- The walk takes a step at every `<`. -/
theorem markupWalk_step {st st' : MarkupState} {place : Nat} {passed rest : List Char}
    (h : markupStep settings script st place (passed ++ rest) = .ok (passed.length, st')) :
    markupWalk settings script st place 0 ('<' :: (passed ++ rest)) =
      markupWalk settings script st' (place + (passed.length + 1)) 0 rest := by
  rw [markupWalk, if_pos rfl, h]
  simp only [markupWalk_skip, Nat.add_assoc, Nat.add_comm 1]

/-- The end of a comment is found behind its body. -/
theorem find?_commentEnd {c : List Char} (hdash : '-' ∉ c) (hgt : '>' ∉ c) (rest : List Char) :
    Text.find? ['-', '-', '>'] ('-' :: '-' :: c ++ '-' :: '-' :: '>' :: rest) =
      some (c.length + 2) := by
  refine Text.findWhere?_append (by simp [Text.startsWith, Text.stripStart?])
    fun u hu hsuffix => ?_
  rw [List.suffix_cons_iff, List.suffix_cons_iff] at hsuffix
  -- The dashes before the body are followed by one of its characters or by a third dash.
  rcases hsuffix with rfl | rfl | hsuffix
  · cases c with
    | nil => simp [Text.startsWith, Text.stripStart?]
    | cons d c =>
      have hd : '>' ≠ d := (List.ne_and_not_mem_of_not_mem_cons hgt).1
      simp [Text.startsWith, Text.stripStart?, hd]
  · cases c with
    | nil => simp [Text.startsWith, Text.stripStart?]
    | cons d c =>
      have hd : '-' ≠ d := (List.ne_and_not_mem_of_not_mem_cons hdash).1
      simp [Text.startsWith, Text.stripStart?, hd]
  · obtain ⟨d, u, rfl⟩ := List.exists_cons_of_ne_nil hu
    have hd : '-' ≠ d := by
      rintro rfl
      exact hdash (hsuffix.subset List.mem_cons_self)
    simp [Text.startsWith, Text.stripStart?, hd]

/-- A comment is passed over. -/
theorem markupStep_comment {c : List Char} (hdash : '-' ∉ c) (hgt : '>' ∉ c) (st : MarkupState)
    (place : Nat) (rest : List Char) :
    markupStep settings script st place ('!' :: '-' :: '-' :: (c ++ ['-', '-', '>'] ++ rest)) =
      .ok (c.length + 6, st) := by
  have hfind := find?_commentEnd hdash hgt rest
  simp only [List.cons_append] at hfind
  rw [markupStep]
  simp only [String.reduceToList, List.append_assoc, List.cons_append, List.nil_append, hfind]
  congr 2
  omega

/-- The step at the `<` of a start tag. -/
theorem markupStep_of_readTag {c : Char} (hc : c.isAlpha = true) {st : MarkupState} {place : Nat}
    {rest : List Char} {tag : Tag}
    (h : readTag settings .markup (fun _ _ => .ok []) st.count place (c :: rest) =
      .ok (some tag)) :
    markupStep settings script st place (c :: rest) =
      tagStep script st place ('<' :: c :: rest) tag := by
  have hbang : c ≠ '!' := ne_of_class hc (by decide)
  have hslash : c ≠ '/' := ne_of_class hc (by decide)
  have hquestion : c ≠ '?' := ne_of_class hc (by decide)
  rw [markupStep.eq_def]
  split
  · simp_all
  · simp_all
  · simp_all
  · simp_all
  · rw [h]

/-- An element with content is open after its start tag. -/
theorem tagStep_open {st : MarkupState} {place : Nat} {text : List Char} {tag : Tag}
    (hopen : tag.selfClosing = false)
    (hcontent : tag.name.map Text.lowerAscii ∉ "script".toList :: "style".toList :: voidElements) :
    tagStep script st place text tag = .ok (tag.stop - place - 1, { st with
      elements := ⟨tag.name, tag.site, tag.inner⟩ :: st.elements
      count := st.count + (tag.sites tag.stop).length }) := by
  simp only [List.mem_cons, not_or] at hcontent
  obtain ⟨hscript, hstyle, hvoid⟩ := hcontent
  rw [tagStep]
  simp only [hopen, hscript, hstyle, List.contains_eq_mem, hvoid, decide_false, Bool.or_self,
    Bool.false_eq_true, if_false]

private theorem tagStep_selfClosing {st : MarkupState} {place : Nat} {text : List Char} {tag : Tag}
    (hclosed : tag.selfClosing = true) :
    tagStep script st place text tag =
      .ok (tag.stop - place - 1, st.record (tag.sites tag.stop)) := by
  rw [tagStep]
  simp only [hclosed, Bool.true_or, if_true]

/-- The step at the start tag of an element with content: one that is closed is recorded, any other
is open from here on. -/
theorem markupStep_startTag {st : MarkupState} {name : ElementName} {attrs : List Attribute}
    {place : Nat} {selfClosing : Bool} {site : Option Site}
    (hsite : elementSite settings.marker name.name.chars (attrs.map Attribute.meaning) place = site)
    (hcount : st.count + site.toList.length ≤ settings.maxSites) (rest : List Char) :
    markupStep settings script st place
        (tagText Attribute.print name.name attrs selfClosing ++ rest) =
      .ok ((tagText Attribute.print name.name attrs selfClosing).length,
        if selfClosing then
          st.record (site.map fun s =>
            s.endingAt (place + (startTag name attrs selfClosing).length)).toList
        else entered st name.name.chars site) := by
  subst hsite
  have hread := readTag_written (Attribute.reads fun _ _ => .ok []) hcount selfClosing rest
  obtain ⟨s, hs⟩ : ∃ s, tagText Attribute.print name.name attrs selfClosing ++ rest =
    name.name.head :: s := ⟨_, rfl⟩
  have hstop : place + 1 + (tagText Attribute.print name.name attrs selfClosing).length =
      place + (startTag name attrs selfClosing).length := by
    simp only [startTag, List.length_cons]
    omega
  have hlength : place + (startTag name attrs selfClosing).length - place - 1 =
      (tagText Attribute.print name.name attrs selfClosing).length := by
    simp [startTag]
  rw [hs, hstop] at hread
  rw [hs, markupStep_of_readTag name.name.head_first hread]
  cases selfClosing with
  | true =>
    rw [tagStep_selfClosing rfl]
    simp only [hlength, Tag.sites, List.nil_append, if_true]
  | false =>
    rw [tagStep_open rfl name.hasContent]
    simp only [hlength, Tag.sites, List.nil_append, Option.toList_map, List.length_map,
      Bool.false_eq_true, if_false, entered]

private theorem closingStep_name {st : MarkupState} {name : Name} {site : Option Site}
    {found : List Site} {elements : List OpenElement}
    (hst : st.elements = ⟨name.chars, site, found⟩ :: elements) (place : Nat) (rest : List Char) :
    closingStep st place (name.chars ++ '>' :: rest) =
      (name.chars.length + 2, MarkupState.place { st with elements }
        (found ++ (site.map fun s => s.endingAt (place + (name.chars.length + 3))).toList)) := by
  have hname := name.isTagChar_of_mem_name
  have hthrough : lengthThrough '>' ('>' :: rest) = 1 := by
    rw [lengthThrough, show Text.findChar? '>' ('>' :: rest) = some 0 from
      Text.findChar?_append List.not_mem_nil rest]
  rw [closingStep, skipSpace_tagName hname, spaceLength_tagName hname, takeWhile_tagName hname,
    List.drop_left, hthrough, hst]
  simp only [closeNamed?, Text.equalIgnoringCase, decide_true, if_true, OpenElement.close]
  have hskip : 1 + 0 + name.chars.length + 1 = name.chars.length + 2 := by omega
  have hstop : place + 1 + (name.chars.length + 2) = place + (name.chars.length + 3) := by omega
  rw [hskip, hstop]

/-! ### The walk over a forest -/

private theorem markupWalk_comment (c : PlainText ['-', '>']) (st : MarkupState) (place : Nat)
    (rest : List Char) :
    markupWalk settings script st place 0
        (['<', '!', '-', '-'] ++ c.chars ++ ['-', '-', '>'] ++ rest) =
      markupWalk settings script st (place + (c.chars.length + 7)) 0 rest := by
  have htext : ['<', '!', '-', '-'] ++ c.chars ++ ['-', '-', '>'] ++ rest =
      '<' :: (('!' :: '-' :: '-' :: (c.chars ++ ['-', '-', '>'])) ++ rest) := by simp
  have hlength : ('!' :: '-' :: '-' :: (c.chars ++ ['-', '-', '>'])).length =
      c.chars.length + 6 := by simp
  rw [htext, markupWalk_step, hlength]
  rw [hlength]
  exact markupStep_comment (c.avoids '-' (by decide)) (c.avoids '>' (by decide)) st place rest

private theorem markupWalk_startTag {st : MarkupState} {name : ElementName} {attrs : List Attribute}
    {place : Nat} {site : Option Site}
    (hsite : elementSite settings.marker name.name.chars (attrs.map Attribute.meaning) place = site)
    (hcount : st.count + site.toList.length ≤ settings.maxSites) (selfClosing : Bool)
    (rest : List Char) :
    markupWalk settings script st place 0 (startTag name attrs selfClosing ++ rest) =
      markupWalk settings script
        (if selfClosing then
          st.record (site.map fun s =>
            s.endingAt (place + (startTag name attrs selfClosing).length)).toList
        else entered st name.name.chars site)
        (place + (startTag name attrs selfClosing).length) 0 rest :=
  markupWalk_step (markupStep_startTag hsite hcount rest)

private theorem markupWalk_closingTag (st : MarkupState) (name : ElementName) (site : Option Site)
    (inner : List Site) (place : Nat) (rest : List Char) :
    markupWalk settings script ((entered st name.name.chars site).record inner) place 0
        (closingTag name.name.chars ++ rest) =
      markupWalk settings script
        (st.record (inner ++ (site.map fun s =>
          s.endingAt (place + (closingTag name.name.chars).length)).toList))
        (place + (closingTag name.name.chars).length) 0 rest := by
  have hopen : ((entered st name.name.chars site).record inner).elements =
      ⟨name.name.chars, site, inner⟩ :: st.elements := by
    simp [entered, MarkupState.record, MarkupState.place]
  have hlength : (closingTag name.name.chars).length =
      ('/' :: (name.name.chars ++ ['>'])).length + 1 := rfl
  have htext : closingTag name.name.chars ++ rest =
      '<' :: ('/' :: (name.name.chars ++ ['>']) ++ rest) := rfl
  rw [htext, markupWalk_step, hlength]
  rw [List.cons_append, List.append_assoc, List.singleton_append, markupStep,
    closingStep_name hopen place rest, place_of_entered]
  simp

end Walk

/-- The walk over the text of a forest records the sites of its outline. -/
theorem markupWalk_print (settings : ScanSettings) (script : Bool → InnerScan) (f : Forest) :
    ∀ (st : MarkupState) (place : Nat) (rest : List Char),
      st.count + (f.outline settings.marker place).size ≤ settings.maxSites →
      markupWalk settings script st place 0 (f.print ++ rest) =
        markupWalk settings script (st.record (f.outline settings.marker place).sites.reverse)
          (place + f.print.length) 0 rest := by
  induction f with
  | nil => intro st place rest _; exact congrArg (markupWalk _ _ · _ _ _) (record_nil st).symm
  | text t next ih =>
    intro st place rest hcount
    rw [Forest.print, List.append_assoc, markupWalk_text (t.avoids '<' (by decide)),
      ih _ _ _ hcount, List.length_append, Nat.add_assoc]
    rfl
  | comment c next ih =>
    intro st place rest hcount
    rw [Forest.print, List.append_assoc, markupWalk_comment, ih _ _ _ hcount]
    congr 1
    simp
    omega
  | element name attrs children next ihchildren ihnext =>
    intro st place rest hcount
    rw [Forest.outline, Outline.size, Outline.size_enclose] at hcount
    generalize hsite : elementSite settings.marker name.name.chars (attrs.map Attribute.meaning)
      place = site at hcount
    -- The sites of the children wait in the open element until its closing tag.
    rw [Forest.print, List.append_assoc, List.append_assoc, List.append_assoc,
      markupWalk_startTag hsite (by omega), if_neg Bool.false_ne_true,
      ihchildren _ _ _ (by simp only [entered]; omega), markupWalk_closingTag, ihnext]
    · rw [record_record, Forest.outline, hsite, Outline.sites, List.reverse_append,
        Outline.reverse_sites_enclose]
      simp only [List.length_append, Nat.add_assoc]
    · simp only [MarkupState.record, List.length_append, List.length_reverse, Outline.length_sites,
        Option.toList_map, List.length_map]
      omega
  | closed name attrs next ih =>
    intro st place rest hcount
    rw [Forest.outline, Outline.size, Outline.size_enclose] at hcount
    generalize hsite : elementSite settings.marker name.name.chars (attrs.map Attribute.meaning)
      place = site at hcount
    rw [Forest.print, List.append_assoc, markupWalk_startTag hsite (by omega), if_pos rfl, ih]
    · rw [record_record, Forest.outline, hsite, Outline.sites, List.reverse_append,
        Outline.reverse_sites_enclose]
      simp only [List.length_append, Nat.add_assoc]
      rfl
    · simp only [MarkupState.record, Option.toList_map, List.length_map]
      simp only [Outline.size] at hcount
      omega

/-! ### Extraction -/

/-- Extraction from a written template gives the usages of its outline: one for each catalog
element, in preorder, with the props of its attributes and the nearest catalog element around it as
its parent. -/
theorem extract_printed_template {options : ExtractOptions} {path : String} (f : Forest)
    (hdialect : Dialect.ofPath ⟨path⟩ = .template) (hnul : '\x00' ∉ f.print)
    (hbytes : Text.byteSize f.print ≤ options.maxBytes)
    (hsites : (f.outline options.marker.toList 0).size ≤ options.maxSites) :
    extract options path (String.ofList f.print) =
      .ok ((f.outline options.marker.toList 0).usages f.print path none 0) := by
  have hwithin := f.within_outline options.marker.toList 0
  rw [Nat.zero_add] at hwithin
  refine Outline.extract_eq_usages hwithin hbytes hnul ?_
  have hwalk := markupWalk_print ⟨options.marker.toList, options.maxSites⟩
    (scanScript ⟨options.marker.toList, options.maxSites⟩ options.maxDepth) f {} 0 []
    (by rwa [Nat.zero_add])
  rw [List.append_nil] at hwalk
  rw [hdialect, scanText, scanMarkup, hwalk]
  simp [markupWalk, MarkupState.finish, MarkupState.record, MarkupState.place]

/-- A card with a button inside a paragraph. -/
def cardWithButton : Forest :=
  .element ⟨.ofAll 'v' "a-card".toList (.refl true), by decide⟩
    [.text ⟨.ofAll 'k' [] (.refl true), by decide⟩ (.ofAll ['v'] (.refl true))]
    (.element ⟨.ofAll 'p' [] (.refl true), by decide⟩ []
      (.text (.ofAll "Hi".toList (.refl true))
        (.closed ⟨.ofAll 'V' "aButton".toList (.refl true), by decide⟩
          [.bare ⟨.ofAll 'o' ['n'] (.refl true), by decide⟩,
            .event ⟨.ofAll 'g' ['o'] (.refl true), by decide⟩
              ⟨.ofAll 'a' [] (.refl true), [.ofAll 'c' [] (.refl true)], by decide⟩]
          .nil)) .nil) .nil

/-- The button has the card as its parent, with the paragraph between them. -/
theorem extract_printed_template_card :
    cardWithButton.print =
        "<va-card k=\"v\"><p>Hi<VaButton on @go=\"a.c\" /></p></va-card>".toList ∧
      extract {} "Page.vue" (String.ofList cardWithButton.print) = .ok [
        { componentName := "va-card", tag := "va-card", filePath := "Page.vue", lineNumber := 1
          column := 1, props := .ofList [("k", .string "v")] },
        { componentName := "va-button", tag := "VaButton", filePath := "Page.vue", lineNumber := 1
          column := 21, props := .ofList [("on", .bool true), ("ongo", .reference "a.c")]
          parent := some 0 }] :=
  ⟨by decide +kernel,
    (extract_printed_template cardWithButton (by decide +kernel) (by decide +kernel)
      (by decide +kernel) (by decide +kernel)).trans (congrArg Except.ok (by decide +kernel))⟩

end ComponentAudit.Written.Template
