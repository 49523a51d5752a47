import ComponentAudit.Proofs.Written.Code
import ComponentAudit.Proofs.Written.Tag

/-!
# Written elements in code

Elements as they are written inside script code: with attributes whose values are quoted or stand in
braces, and with texts, comments, elements and guarded elements `{path && element}` as children. A
tree says how it is written (`Element.print`) and how its catalog elements nest
(`Element.outline`).

Extraction from the written tree gives exactly the usages of the outline. The walk alternates
between code and children on one stack of frames. Whatever that stack is, the walk over an element
records the sites of its outline in the innermost frame and leaves the stack as it was
(`scriptWalk_element`), provided that an element may stand there (`MayOpen`).
-/

namespace ComponentAudit.Written.Jsx

/-! ### Attributes -/

/-- An attribute of an element. -/
inductive Attribute where
  /-- A text between double quotes. -/
  | text (key : Name) (value : PlainText ['"'])
  /-- A text between single quotes. -/
  | singleQuoted (key : Name) (value : PlainText ['\''])
  /-- A prop that is switched on. -/
  | bare (key : Name)
  /-- A path in braces. -/
  | braced (key : Name) (path : MemberPath)
  /-- All members of a path. -/
  | spread (path : MemberPath)

namespace Attribute

/-- The text of an attribute. -/
def print : Attribute → List Char
  | .text key value => key.chars ++ '=' :: '"' :: (value.chars ++ ['"'])
  | .singleQuoted key value => key.chars ++ '=' :: '\'' :: (value.chars ++ ['\''])
  | .bare key => key.chars
  | .braced key path => key.chars ++ '=' :: '\x7b' :: (path.chars ++ ['\x7d'])
  | .spread path => '\x7b' :: '.' :: '.' :: '.' :: (path.chars ++ ['\x7d'])

/-- What an attribute means for the props of its element. -/
def meaning : Attribute → AttrMeaning
  | .text key value => .prop key.chars (.string (String.ofList value.chars))
  | .singleQuoted key value => .prop key.chars (.string (String.ofList value.chars))
  | .bare key => .prop key.chars (.bool true)
  | .braced key path => .prop key.chars (.reference (String.ofList path.chars))
  | .spread _ => .spread

end Attribute

/-! ### Trees -/

mutual

/-- An element or a fragment. -/
inductive Element where
  | container (name : Name) (attrs : List Attribute) (children : Children)
  /-- An element without children, closed by its own tag. -/
  | closed (name : Name) (attrs : List Attribute)
  | fragment (children : Children)

/-- Children that follow one another. Every child comes with the children after it. -/
inductive Children where
  | nil
  | text (t : PlainText ['<', '\x7b']) (next : Children)
  | comment (c : PlainText ['*', '/']) (next : Children)
  | element (e : Element) (next : Children)
  /-- An element that is there if a path is true. -/
  | guarded (condition : MemberPath) (e : Element) (next : Children)

end

/-- The start tag of an element. -/
def startTag (name : Name) (attrs : List Attribute) (selfClosing : Bool) : List Char :=
  '<' :: tagText Attribute.print name attrs selfClosing

/-- What stands before a guarded element. -/
def guard (condition : MemberPath) : List Char :=
  '\x7b' :: (condition.chars ++ [' ', '&', '&', ' '])

mutual

/-- The text of an element. -/
def Element.print : Element → List Char
  | .container name attrs children =>
    startTag name attrs false ++ children.print ++ closingTag name.chars
  | .closed name attrs => startTag name attrs true
  | .fragment children => ['<', '>'] ++ children.print ++ closingTag []

/-- The text of children. -/
def Children.print : Children → List Char
  | .nil => []
  | .text t next => t.chars ++ next.print
  | .comment c next =>
    ['\x7b', '/', '*'] ++ c.chars ++ ['*', '/', '\x7d'] ++ next.print
  | .element e next => e.print ++ next.print
  | .guarded condition e next => guard condition ++ e.print ++ ['\x7d'] ++ next.print

end

mutual

/-- The outline of the catalog elements of an element that begins at the given place. -/
def Element.outline (marker : List Char) (place : Nat) : Element → Outline
  | .container name attrs children =>
    let body := place + (startTag name attrs false).length
    .enclose (elementSite marker name.chars (attrs.map Attribute.meaning) place)
      (body + children.print.length + (closingTag name.chars).length)
      (children.outline marker body)
  | .closed name attrs =>
    .enclose (elementSite marker name.chars (attrs.map Attribute.meaning) place)
      (place + (startTag name attrs true).length) .empty
  | .fragment children => children.outline marker (place + 2)

/-- The outline of the catalog elements of children that begin at the given place. -/
def Children.outline (marker : List Char) (place : Nat) : Children → Outline
  | .nil => .empty
  | .text t next => next.outline marker (place + t.chars.length)
  | .comment c next => next.outline marker (place + (c.chars.length + 6))
  | .element e next =>
    .join (e.outline marker place) (next.outline marker (place + e.print.length))
  | .guarded condition e next =>
    let start := place + (guard condition).length
    .join (e.outline marker start) (next.outline marker (start + e.print.length + 1))

end

/-! ### Attributes are read -/

section Attribute

variable {scan : InnerScan} {name : List Char} {st : TagState} {place : Nat} {rest : List Char}

private theorem head?_name (key : Name) (rest : List Char) :
    (key.chars ++ rest).head?.any isAttrStart = true := by
  simp [Word.chars, isAttrStart_of_isAlpha key.head_first]

/-- An attribute in quotes gives its text. -/
theorem tagWalk_quoted (key : Name) {quote : Char} {value : List Char}
    (hquote : quote = '"' ∨ quote = '\'') (hvalue : quote ∉ value) :
    tagWalk .jsx scan name st place 0
        (key.chars ++ '=' :: quote :: (value ++ [quote]) ++ rest) =
      tagWalk .jsx scan name (st.apply (.prop key.chars (.string (String.ofList value))))
        (place + (key.chars ++ '=' :: quote :: (value ++ [quote])).length) 0 rest := by
  have hread : readAttribute? .jsx _ = _ :=
    readAttribute?_quoted key.isAttrChar_of_mem_name hquote hvalue rest
  refine tagWalk_attribute (head?_name key _) (by simpa using hread) ?_ rfl fun _ _ h => by cases h
  simp

/-- An attribute in braces with a path gives a reference. -/
theorem tagWalk_braced (key : Name) (path : MemberPath)
    (hscan : ∀ (count start : Nat) (lead : Option Char),
      scan count ⟨start, lead, path.chars⟩ = .ok []) :
    tagWalk .jsx scan name st place 0
        (key.chars ++ '=' :: '\x7b' :: (path.chars ++ ['\x7d']) ++ rest) =
      tagWalk .jsx scan name (st.apply (.prop key.chars (.reference (String.ofList path.chars))))
        (place + (key.chars ++ '=' :: '\x7b' :: (path.chars ++ ['\x7d'])).length) 0 rest := by
  have hread : readAttribute? .jsx _ = _ :=
    readAttribute?_braced key.isAttrChar_of_mem_name
      (Script.closeLength?_of_crosses path.crosses rfl rest)
  refine tagWalk_attribute (head?_name key _) (by simpa using hread) (by simp) ?_ ?_
  · simp [ComponentAudit.Attribute.meaning?, plainValue?, path.classify_chars]
  · intro e _ he
    cases he
    exact hscan _ _ _

/-- A spread in braces. -/
theorem tagWalk_spread {e : List Char} (hcross : Script.Crosses e)
    (hdots : Text.startsWith ['.', '.', '.'] (Text.trimStart e) = true) :
    tagWalk .jsx scan name st place 0 ('\x7b' :: (e ++ ['\x7d']) ++ rest) =
      tagWalk .jsx scan name (st.apply .spread) (place + ('\x7b' :: (e ++ ['\x7d'])).length) 0
        rest := by
  have hclose : Script.closeLength? '\x7b' (e ++ '\x7d' :: rest) = some e.length :=
    Script.closeLength?_of_crosses hcross rfl rest
  have hpart : tagPart .jsx '\x7b' (e ++ '\x7d' :: rest) = .spread (e ++ ['\x7d']).length := by
    rw [tagPart, Script.commentLength?_eq_none (by decide), hclose]
    simp [show Text.isSpace '\x7b' = false by decide, hdots]
  have hskip : tagWalk .jsx scan name (st.apply .spread) _ _ _ = _ :=
    tagWalk_skip _ (e ++ ['\x7d']) rest (place + 1)
  rw [List.append_assoc, List.singleton_append] at hskip
  rw [List.cons_append, List.append_assoc, List.singleton_append, tagWalk, hpart]
  refine hskip.trans ?_
  rw [List.length_cons, Nat.add_right_comm, Nat.add_assoc]

end Attribute

/-- The walk over a tag understands written attributes, if the scan of their expressions finds
nothing in paths. -/
theorem Attribute.reads {scan : InnerScan}
    (hscan : ∀ (count start : Nat) (lead : Option Char) (path : MemberPath),
      scan count ⟨start, lead, path.chars⟩ = .ok []) :
    ReadsAttributes .jsx scan Attribute.print Attribute.meaning where
  starts a := by
    have hname : ∀ key : Name, Text.isSpace key.head = false ∧ key.head ≠ '=' := by
      intro key
      have hc := isAttrStart_of_isAlpha key.head_first
      exact ⟨isSpace_eq_false_of_isAttrStart hc, ne_of_class hc (by decide)⟩
    cases a with
    | text key value => exact ⟨key.head, _, rfl, hname key⟩
    | singleQuoted key value => exact ⟨key.head, _, rfl, hname key⟩
    | bare key => exact ⟨key.head, _, rfl, hname key⟩
    | braced key path => exact ⟨key.head, _, rfl, hname key⟩
    | spread path => exact ⟨_, _, rfl, by decide, by decide⟩
  walks a name st place rest hrest := by
    cases a with
    | text key value => exact tagWalk_quoted key (.inl rfl) (value.avoids '"' (by decide))
    | singleQuoted key value => exact tagWalk_quoted key (.inr rfl) (value.avoids '\'' (by decide))
    | bare key =>
      have hhead := head?_name key []
      rw [List.append_nil] at hhead
      exact tagWalk_attribute hhead (readAttribute?_bare key.isAttrChar_of_mem_name hrest) rfl rfl
        fun _ _ h => by cases h
    | braced key path => exact tagWalk_braced key path fun count start lead => hscan _ _ _ _
    | spread path =>
      have hdots : Script.Crosses ('.' :: '.' :: '.' :: path.chars) :=
        .cons (by decide) (.cons (by decide) (.cons (by decide) path.crosses))
      refine tagWalk_spread hdots ?_
      rw [Text.trimStart_cons (by decide)]
      simp [Text.startsWith, Text.stripStart?]

/-! ### Outlines lie within their text -/

/-- A start tag is not empty. -/
theorem length_startTag_pos (name : Name) (attrs : List Attribute) (selfClosing : Bool) :
    0 < (startTag name attrs selfClosing).length := by
  simp [startTag]

mutual

/-- The components of an element are within its text. -/
theorem Element.within_outline (marker : List Char) :
    ∀ (e : Element) (place : Nat), (e.outline marker place).Within place (place + e.print.length)
  | .container name attrs children, place => by
    have htag := length_startTag_pos name attrs false
    have hchildren := children.within_outline marker (place + (startTag name attrs false).length)
    have hstop : place + (startTag name attrs false).length + children.print.length +
        (closingTag name.chars).length =
          place + (Element.container name attrs children).print.length := by
      simp only [Element.print, List.length_append]
      omega
    rw [← hstop]
    exact hchildren.enclose start_of_elementSite (Nat.lt_add_of_pos_right htag)
      (Nat.le_add_right _ _)
  | .closed name attrs, place => by
    have htag := length_startTag_pos name attrs true
    have hempty : Outline.empty.Within (place + (startTag name attrs true).length)
        (place + (startTag name attrs true).length) := Nat.le_refl _
    exact hempty.enclose start_of_elementSite (Nat.lt_add_of_pos_right htag) (Nat.le_refl _)
  | .fragment children, place => by
    refine (children.within_outline marker (place + 2)).mono (Nat.le_add_right _ _) ?_
    simp only [Element.print, List.length_append, List.length_cons, List.length_nil]
    omega

/-- So are those of its children. -/
theorem Children.within_outline (marker : List Char) :
    ∀ (c : Children) (place : Nat), (c.outline marker place).Within place (place + c.print.length)
  | .nil, place => Nat.le_refl _
  | .text t next, place => by
    refine (next.within_outline marker (place + t.chars.length)).mono (Nat.le_add_right _ _) ?_
    simp only [Children.print, List.length_append]
    omega
  | .comment c next, place => by
    refine (next.within_outline marker (place + (c.chars.length + 6))).mono
      (Nat.le_add_right _ _) ?_
    simp only [Children.print, List.length_append, List.length_cons, List.length_nil]
    omega
  | .element e next, place => by
    refine ⟨_, e.within_outline marker place, (next.within_outline marker _).mono
      (Nat.le_refl _) ?_⟩
    simp only [Children.print, List.length_append]
    omega
  | .guarded condition e next, place => by
    refine ⟨_, (e.within_outline marker _).mono (Nat.le_add_right _ _) (Nat.le_add_right _ 1),
      (next.within_outline marker _).mono (Nat.le_refl _) ?_⟩
    simp only [Children.print, List.length_append, List.length_cons, List.length_nil]
    omega

end

/-! ### States of the walk -/

/-- An element may open: the walk is among children, or in code where an expression may start. -/
def MayOpen (st : ScriptState) (before : List Char) : Prop :=
  InChildren st ∨ (InCode st ∧ Script.expressionMayStart before = true)

/-- The state after the start tag of an element. -/
def entered (st : ScriptState) (tag : List Char) (site : Option Site) : ScriptState :=
  ⟨.children tag site [] :: st.frames, st.count + site.toList.length⟩

/-- The state after a brace among children. -/
def enteredCode (st : ScriptState) : ScriptState := ⟨.code 0 [] :: st.frames, st.count⟩

private theorem inChildren_entered (st : ScriptState) (tag : List Char) (site : Option Site) :
    InChildren (entered st tag site) :=
  ⟨tag, site, [], st.frames, rfl⟩

private theorem inCode_enteredCode (st : ScriptState) : InCode (enteredCode st) :=
  ⟨0, [], st.frames, rfl⟩

/-- An element that is closed again leaves its sites, and nothing else. -/
theorem closeElements?_entered (st : ScriptState) (tag : List Char) (site : Option Site)
    (inner : List Site) (stop : Nat) :
    closeElements? tag stop (recorded (entered st tag site) inner).frames =
      some (inner ++ (site.map fun s => s.endingAt stop).toList, st.frames) := by
  simp [recorded, entered, recordSites, Frame.record, closeElements?, Frame.close]

section Walk

variable {s : ScriptScan} {st : ScriptState} {before : List Char}

private theorem scriptStep_open (hst : MayOpen st before) (hjsx : s.jsx = true) {rest : List Char}
    (hrest : tagMayStart rest = true) (place : Nat) :
    scriptStep s st place before '<' rest = openStep s st place rest := by
  rcases hst with hst | ⟨hst, hbefore⟩
  · have hslash : rest.head? ≠ some '/' := by
      intro h
      rw [tagMayStart, h] at hrest
      exact absurd hrest (by decide)
    rw [hst.scriptStep, childrenStep]
    simp [hslash]
  · rw [hst.scriptStep, scriptCodeStep, Script.commentLength?_eq_none (by decide),
      Script.regexLength?_eq_none (by decide)]
    simp [hjsx, hrest, hbefore]

/-- The walk over a start tag: a closed element is recorded, any other is open from here on. -/
theorem scriptWalk_startTag (hjsx : s.jsx = true)
    (hreads : ReadsAttributes .jsx s.scan Attribute.print Attribute.meaning)
    (hst : MayOpen st before) {name : Name} {attrs : List Attribute} {place : Nat}
    {site : Option Site}
    (hsite : elementSite s.settings.marker name.chars (attrs.map Attribute.meaning) place = site)
    (hcount : st.count + site.toList.length ≤ s.settings.maxSites) (selfClosing : Bool)
    (rest : List Char) :
    scriptWalk s st place before 0 (startTag name attrs selfClosing ++ rest) =
      scriptWalk s
        (if selfClosing then
          recorded st (site.map fun s =>
            s.endingAt (place + (startTag name attrs selfClosing).length)).toList
        else entered st name.chars site)
        (place + (startTag name attrs selfClosing).length)
        ((startTag name attrs selfClosing).reverse ++ before) 0 rest := by
  subst hsite
  have hread := readTag_written hreads hcount selfClosing rest
  have hmay : tagMayStart (tagText Attribute.print name attrs selfClosing ++ rest) = true := by
    simp [tagMayStart, tagText, Word.chars, name.head_first]
  have hstop : place + 1 + (tagText Attribute.print name attrs selfClosing).length =
      place + (startTag name attrs selfClosing).length := by
    simp only [startTag, List.length_cons]
    omega
  refine scriptWalk_step ?_
  rw [scriptStep_open hst hjsx hmay, openStep, hread]
  have hlength : place + (startTag name attrs selfClosing).length - (place + 1) =
      (tagText Attribute.print name attrs selfClosing).length := by
    simp only [startTag, List.length_cons]
    omega
  simp only [Tag.sites, List.nil_append, hstop, hlength]
  cases selfClosing with
  | true => simp only [if_true, recorded]
  | false =>
    simp only [Bool.false_eq_true, if_false, entered, Option.toList_map, List.length_map]

private theorem scriptWalk_fragment (hjsx : s.jsx = true) (hst : MayOpen st before) (place : Nat)
    (rest : List Char) :
    scriptWalk s st place before 0 (['<', '>'] ++ rest) =
      scriptWalk s (entered st [] none) (place + 2) (['<', '>'].reverse ++ before) 0 rest := by
  have hstep : scriptStep s st place before '<' (['>'] ++ rest) =
      .ok (['>'].length, entered st [] none) := by
    rw [scriptStep_open hst hjsx (by simp [tagMayStart]), openStep, List.singleton_append, readTag]
    simp [Tag.sites, entered]
  exact scriptWalk_step hstep

/-- The walk over a closing tag, when everything inside is closed. -/
theorem scriptWalk_closingTag {tag : List Char} (htag : ∀ c ∈ tag, isTagChar c = true)
    (site : Option Site) (inner : List Site) (place : Nat) (rest : List Char) :
    scriptWalk s (recorded (entered st tag site) inner) place before 0 (closingTag tag ++ rest) =
      scriptWalk s
        (recorded st (inner ++ (site.map fun s =>
          s.endingAt (place + (closingTag tag).length)).toList))
        (place + (closingTag tag).length) ((closingTag tag).reverse ++ before) 0 rest := by
  have hinner := (inChildren_entered st tag site).recorded inner
  have hstop : place + 1 + (tag.length + 2) = place + (closingTag tag).length := by
    simp only [closingTag, List.length_cons, List.length_append, List.length_nil]
    omega
  have hstep : closeStep (recorded (entered st tag site) inner) place
      ('/' :: (tag ++ '>' :: rest)) = (tag.length + 2,
        recorded st (inner ++ (site.map fun s =>
          s.endingAt (place + (closingTag tag).length)).toList)) := by
    have hgt : Script.skipSpace ('>' :: rest) = '>' :: rest := rfl
    have hspace : Script.spaceLength ('>' :: rest) = 0 := rfl
    have hskip : 1 + 0 + tag.length + 0 + 1 = tag.length + 2 := by omega
    rw [closeStep, List.drop_one, List.tail_cons, skipSpace_tagName htag,
      spaceLength_tagName htag, takeWhile_tagName htag, List.drop_left]
    simp only [hgt, hspace, hskip, hstop, closeElements?_entered]
    simp [recorded, entered, Option.toList_map, Nat.add_assoc, Nat.add_comm inner.length]
  have hclose : scriptStep s (recorded (entered st tag site) inner) place before '<'
      ('/' :: (tag ++ ['>']) ++ rest) = .ok (('/' :: (tag ++ ['>'])).length, recorded st
        (inner ++ (site.map fun s => s.endingAt (place + (closingTag tag).length)).toList)) := by
    rw [hinner.scriptStep, childrenStep, List.cons_append, List.append_assoc,
      List.singleton_append]
    simp [hstep]
  exact scriptWalk_step hclose

private theorem scriptWalk_text (hst : InChildren st) {t : List Char} (hlt : '<' ∉ t)
    (hbrace : '\x7b' ∉ t) (rest : List Char) :
    ∀ (place : Nat) (before : List Char), scriptWalk s st place before 0 (t ++ rest) =
      scriptWalk s st (place + t.length) (t.reverse ++ before) 0 rest := by
  induction t with
  | nil => intro place before; rfl
  | cons c t ih =>
    intro place before
    obtain ⟨hc, hlt⟩ := List.ne_and_not_mem_of_not_mem_cons hlt
    obtain ⟨hc', hbrace⟩ := List.ne_and_not_mem_of_not_mem_cons hbrace
    have hstep : scriptStep s st place before c (t ++ rest) = .ok (0, st) := by
      rw [hst.scriptStep, childrenStep, if_neg hc'.symm, if_neg hc.symm]
    rw [List.cons_append, scriptWalk_char hstep, ih hlt hbrace, List.reverse_cons,
      List.append_assoc, List.singleton_append, List.length_cons, Nat.add_right_comm,
      Nat.add_assoc]

/-! ### Code among children -/

private theorem scriptWalk_openBrace (hst : InChildren st) (place : Nat) (rest : List Char) :
    scriptWalk s st place before 0 ('\x7b' :: rest) =
      scriptWalk s (enteredCode st) (place + 1) ('\x7b' :: before) 0 rest := by
  refine scriptWalk_char ?_
  rw [hst.scriptStep, childrenStep, if_pos rfl]
  rfl

/-- Code that is left again leaves its sites, and nothing else. -/
theorem scriptWalk_closeBrace (hst : InChildren st) (sites : List Site) (place : Nat)
    (rest : List Char) :
    scriptWalk s (recorded (enteredCode st) sites) place before 0 ('\x7d' :: rest) =
      scriptWalk s (recorded st sites) (place + 1) ('\x7d' :: before) 0 rest := by
  refine scriptWalk_char ?_
  have hcode := (inCode_enteredCode st).recorded sites
  rw [hcode.scriptStep, scriptCodeStep, Script.commentLength?_eq_none (by decide),
    Script.regexLength?_eq_none (by decide)]
  obtain ⟨tag, site, found, outer, hframes⟩ := hst
  simp [recorded, enteredCode, recordSites, hframes, Frame.record, closeBrace]

private theorem scriptWalk_comment (hst : InChildren st) (c : PlainText ['*', '/']) (place : Nat)
    (rest : List Char) :
    scriptWalk s st place before 0
        (['\x7b', '/', '*'] ++ c.chars ++ ['*', '/', '\x7d'] ++ rest) =
      scriptWalk s st (place + (c.chars.length + 6))
        ((['\x7b', '/', '*'] ++ c.chars ++ ['*', '/', '\x7d']).reverse ++ before) 0 rest := by
  have hcode := inCode_enteredCode st
  have hlength : Script.commentLength? ('/' :: ('*' :: (c.chars ++ ['*', '/']) ++ '\x7d' :: rest)) =
      some (c.chars.length + 4) := by
    have hfind : Text.find? ['*', '/'] (c.chars ++ ['*', '/'] ++ '\x7d' :: rest) =
        some c.chars.length := Text.find?_append (c.avoids '*' (by decide)) _
    rw [List.cons_append, List.append_assoc, Script.commentLength?, Script.blockCommentLength,
      ← List.append_assoc, hfind]
  have hstep : scriptStep s (enteredCode st) (place + 1) ('\x7b' :: before) '/'
      ('*' :: (c.chars ++ ['*', '/']) ++ '\x7d' :: rest) =
        .ok (('*' :: (c.chars ++ ['*', '/'])).length, enteredCode st) := by
    rw [hcode.scriptStep, scriptCodeStep, hlength]
    simp
  have htext : ['\x7b', '/', '*'] ++ c.chars ++ ['*', '/', '\x7d'] ++ rest =
      '\x7b' :: '/' :: ('*' :: (c.chars ++ ['*', '/']) ++ '\x7d' :: rest) := by simp
  have hnil : recorded (enteredCode st) [] = enteredCode st :=
    recorded_nil (by simp [enteredCode])
  rw [htext, scriptWalk_openBrace hst, scriptWalk_step hstep, ← hnil, scriptWalk_closeBrace hst,
    recorded_nil hst.frames_ne_nil]
  congr 1
  · simp
    omega
  · simp

private theorem scriptWalk_guard (hst : InChildren st) (condition : MemberPath) (place : Nat)
    (rest : List Char) :
    scriptWalk s st place before 0 (guard condition ++ rest) =
      scriptWalk s (enteredCode st) (place + (guard condition).length)
        ((guard condition).reverse ++ before) 0 rest := by
  have hcode := inCode_enteredCode st
  have hend : EndsIdent ([' ', '&', '&', ' '] ++ rest) := ⟨rfl, show some '&' ≠ some '(' by decide⟩
  have hpass : Passes s (enteredCode st) (condition.chars ++ [' ', '&', '&', ' ']) rest :=
    (passes_path condition hcode hend).append (passes_plain hcode (by decide) rest)
  rw [guard, List.cons_append, scriptWalk_openBrace hst, hpass, List.length_cons,
    List.reverse_cons, List.append_assoc, List.singleton_append, Nat.add_assoc, Nat.add_comm 1]

end Walk

/-! ### The walk over trees -/

mutual

/-- The walk over the text of an element records the sites of its outline. -/
theorem scriptWalk_element {s : ScriptScan} (hjsx : s.jsx = true)
    (hreads : ReadsAttributes .jsx s.scan Attribute.print Attribute.meaning) :
    ∀ (e : Element) (st : ScriptState) (place : Nat) (before rest : List Char),
      MayOpen st before →
      st.count + (e.outline s.settings.marker place).size ≤ s.settings.maxSites →
      scriptWalk s st place before 0 (e.print ++ rest) =
        scriptWalk s (recorded st (e.outline s.settings.marker place).sites.reverse)
          (place + e.print.length) (e.print.reverse ++ before) 0 rest
  | .container name attrs children, st, place, before, rest, hst, hcount => by
    rw [Element.outline, Outline.size_enclose] at hcount
    generalize hsite : elementSite s.settings.marker name.chars (attrs.map Attribute.meaning)
      place = site at hcount
    -- The sites of the children wait in the frame of the element until its closing tag.
    have hchildren := scriptWalk_children hjsx hreads children (entered st name.chars site)
      (place + (startTag name attrs false).length) ((startTag name attrs false).reverse ++ before)
      (closingTag name.chars ++ rest) (inChildren_entered st name.chars site)
      (by simp only [entered]; omega)
    rw [Element.print, List.append_assoc, List.append_assoc,
      scriptWalk_startTag hjsx hreads hst hsite (by omega), if_neg Bool.false_ne_true, hchildren,
      scriptWalk_closingTag name.isTagChar_of_mem_name, Element.outline, hsite,
      Outline.reverse_sites_enclose]
    simp only [List.length_append, Nat.add_assoc, List.reverse_append, List.append_assoc]
  | .closed name attrs, st, place, before, rest, hst, hcount => by
    rw [Element.outline, Outline.size_enclose] at hcount
    generalize hsite : elementSite s.settings.marker name.chars (attrs.map Attribute.meaning)
      place = site at hcount
    rw [Element.print, scriptWalk_startTag hjsx hreads hst hsite (by omega), if_pos rfl,
      Element.outline, hsite, Outline.reverse_sites_enclose]
    rfl
  | .fragment children, st, place, before, rest, hst, hcount => by
    have hchildren := scriptWalk_children hjsx hreads children (entered st [] none) (place + 2)
      (['<', '>'].reverse ++ before) (closingTag [] ++ rest) (inChildren_entered st [] none) hcount
    rw [Element.print, List.append_assoc, List.append_assoc, scriptWalk_fragment hjsx hst,
      hchildren, scriptWalk_closingTag (by simp)]
    simp only [Element.outline, Option.map_none, Option.toList_none, List.append_nil,
      List.length_append, Nat.add_assoc, List.reverse_append, List.append_assoc]
    rfl

/-- The walk over the text of children records the sites of their outline. -/
theorem scriptWalk_children {s : ScriptScan} (hjsx : s.jsx = true)
    (hreads : ReadsAttributes .jsx s.scan Attribute.print Attribute.meaning) :
    ∀ (c : Children) (st : ScriptState) (place : Nat) (before rest : List Char), InChildren st →
      st.count + (c.outline s.settings.marker place).size ≤ s.settings.maxSites →
      scriptWalk s st place before 0 (c.print ++ rest) =
        scriptWalk s (recorded st (c.outline s.settings.marker place).sites.reverse)
          (place + c.print.length) (c.print.reverse ++ before) 0 rest
  | .nil, st, place, before, rest, hst, _ => by
    rw [Children.outline, Outline.sites, List.reverse_nil, recorded_nil hst.frames_ne_nil]
    rfl
  | .text t next, st, place, before, rest, hst, hcount => by
    rw [Children.print, List.append_assoc, scriptWalk_text hst (t.avoids '<' (by decide))
      (t.avoids '\x7b' (by decide)), scriptWalk_children hjsx hreads next _ _ _ _ hst hcount]
    simp only [Children.outline, List.length_append, Nat.add_assoc, List.reverse_append,
      List.append_assoc]
  | .comment c next, st, place, before, rest, hst, hcount => by
    rw [Children.print, List.append_assoc, scriptWalk_comment hst,
      scriptWalk_children hjsx hreads next _ _ _ _ hst hcount]
    have hlength : (['\x7b', '/', '*'] ++ c.chars ++ ['*', '/', '\x7d']).length =
        c.chars.length + 6 := by
      simp only [List.length_append, List.length_cons, List.length_nil]
      omega
    rw [Children.outline, List.length_append, hlength, Nat.add_assoc]
    simp only [List.reverse_append, List.append_assoc]
  | .element e next, st, place, before, rest, hst, hcount => by
    rw [Children.outline, Outline.size] at hcount
    rw [Children.print, List.append_assoc,
      scriptWalk_element hjsx hreads e _ _ _ _ (.inl hst) (by omega),
      scriptWalk_children hjsx hreads next _ _ _ _ (hst.recorded _),
      recorded_recorded _ _ hst.frames_ne_nil]
    · simp only [Children.outline, Outline.sites, List.length_append, Nat.add_assoc,
        List.reverse_append, List.append_assoc]
    · simp only [recorded, List.length_reverse, Outline.length_sites]
      omega
  | .guarded condition e next, st, place, before, rest, hst, hcount => by
    rw [Children.outline, Outline.size] at hcount
    -- The brace opens a frame of code, in which an element may start behind `&&`.
    have hopen : MayOpen (enteredCode st) ((guard condition).reverse ++ before) :=
      .inr ⟨inCode_enteredCode st, by simp [guard]; rfl⟩
    have helement := scriptWalk_element hjsx hreads e (enteredCode st)
      (place + (guard condition).length) ((guard condition).reverse ++ before)
      ('\x7d' :: (next.print ++ rest)) hopen (by simp only [enteredCode]; omega)
    rw [Children.print, List.append_assoc, List.append_assoc, List.append_assoc,
      scriptWalk_guard hst, List.singleton_append, helement, scriptWalk_closeBrace hst,
      scriptWalk_children hjsx hreads next _ _ _ _ (hst.recorded _),
      recorded_recorded _ _ hst.frames_ne_nil]
    · simp only [Children.outline, Outline.sites, List.length_append, Nat.add_assoc,
        List.reverse_append, List.append_assoc]
      rfl
    · simp only [recorded, List.length_reverse, Outline.length_sites]
      omega

end

/-! ### Extraction -/

/-- **The scan of a printed element** finds the sites of its outline. -/
theorem scanScript_print {settings : ScanSettings} {e : Element}
    (hsites : (e.outline settings.marker 0).size ≤ settings.maxSites) (levels : Nat) :
    scanScript settings levels true 0 (.ofText e.print) =
      .ok (e.outline settings.marker 0).sites.reverse := by
  have hregion : ∀ scan : InnerScan, (∀ (count start : Nat) (lead : Option Char)
      (path : MemberPath), scan count ⟨start, lead, path.chars⟩ = .ok []) →
      scanRegion settings true scan 0 (.ofText e.print) =
        .ok (e.outline settings.marker 0).sites.reverse := by
    intro scan hscan
    have hwalk := scriptWalk_element (s := ⟨settings, true, scan, none⟩) rfl (Attribute.reads hscan)
      e ⟨[.code 0 []], 0⟩ 0 [] [] (.inr ⟨⟨0, [], [], rfl⟩, rfl⟩) (by rwa [Nat.zero_add])
    rw [List.append_nil] at hwalk
    rw [scanRegion, Region.ofText, hwalk]
    simp [scriptWalk, recorded, recordSites, Frame.record, closeAll, Frame.close]
  -- At the last level the expressions of attributes are not scanned at all.
  cases levels with
  | zero => exact hregion _ fun _ _ _ _ => rfl
  | succ levels => exact hregion _ fun count start lead path => scanScript_path _ _ _ path _ _ _

/-- Extraction from a written element gives the usages of its outline: one for each catalog element,
in preorder, with the props of its attributes and the nearest catalog element around it as its
parent. -/
theorem extract_printed_jsx {options : ExtractOptions} {path : String} (e : Element)
    (hdialect : Dialect.ofPath ⟨path⟩ = .script true) (hnul : '\x00' ∉ e.print)
    (hbytes : Text.byteSize e.print ≤ options.maxBytes)
    (hsites : (e.outline options.marker.toList 0).size ≤ options.maxSites) :
    extract options path (String.ofList e.print) =
      .ok ((e.outline options.marker.toList 0).usages e.print path none 0) := by
  have hwithin := e.within_outline options.marker.toList 0
  rw [Nat.zero_add] at hwithin
  refine Outline.extract_eq_usages hwithin hbytes hnul ?_
  rw [hdialect, scanText]
  exact scanScript_print hsites options.maxDepth

/-- A fragment with a guarded alert that spreads its props. -/
def guardedAlert : Element :=
  .fragment (.comment (.ofAll ['c'] (.refl true))
    (.guarded ⟨.ofAll 'o' ['k'] (.refl true), [], by decide⟩
      (.container (.ofAll 'V' "aAlert".toList (.refl true))
        [.spread ⟨.ofAll 'p' [] (.refl true), [], by decide⟩,
          .braced (.ofAll 'k' [] (.refl true))
            ⟨.ofAll 'a' [] (.refl true), [.ofAll 'b' [] (.refl true)], by decide⟩]
        (.text (.ofAll "Hi".toList (.refl true))
          (.element (.closed (.ofAll 'v' "a-link".toList (.refl true))
            [.singleQuoted (.ofAll 'h' [] (.refl true)) (.ofAll ['x'] (.refl true)),
              .bare (.ofAll 'o' ['n'] (.refl true))])
            .nil))) .nil))

/-- The link has the alert as its parent; the fragment and the code around them add nothing. -/
theorem extract_printed_jsx_alert :
    guardedAlert.print = ("<>\x7b/*c*/\x7d\x7bok && <VaAlert \x7b...p\x7d k=\x7ba.b\x7d>" ++
        "Hi<va-link h='x' on /></VaAlert>\x7d</>").toList ∧
      extract {} "Page.tsx" (String.ofList guardedAlert.print) = .ok [
        { componentName := "va-alert", tag := "VaAlert", filePath := "Page.tsx", lineNumber := 1
          column := 17, props := .ofList [("k", .reference "a.b")], spread := true },
        { componentName := "va-link", tag := "va-link", filePath := "Page.tsx", lineNumber := 1
          column := 43, props := .ofList [("h", .string "x"), ("on", .bool true)]
          parent := some 0 }] :=
  ⟨by decide +kernel, (extract_printed_jsx guardedAlert (by decide +kernel) (by decide +kernel)
    (by decide +kernel) (by decide +kernel)).trans (congrArg Except.ok (by decide +kernel))⟩

end ComponentAudit.Written.Jsx
