import ComponentAudit.Proofs.Invocation.Markup
import ComponentAudit.Proofs.Offset.Attribute
import ComponentAudit.Proofs.Offset.Search

/-!
# What a step of a scan can do

A step that succeeds does one of few things to the state of a scan, whatever character it is at.
`ScriptMove` and `MarkupMove` list them, with the number of characters that are passed over next. An
invariant of the state is then a statement about each move: about what is recorded and closed, not
about how the step came to it.
-/

namespace ComponentAudit

/-! ### Lengths -/

/-- Blanks and what follows them make up the text. -/
theorem length_skipSpace (s : List Char) :
    (Script.skipSpace s).length + Script.spaceLength s = s.length := by
  rw [← drop_spaceLength, List.length_drop]
  exact Nat.sub_add_cancel (List.takeWhile_sublist _).length_le

private theorem lengthThrough_le (c : Char) (s : List Char) : lengthThrough c s ≤ s.length := by
  unfold lengthThrough
  split
  · next hk => exact Offset.findChar?_lt hk
  · exact Nat.le_refl _

/-! ### Script code -/

/-- What a step of the scan of code does: so many characters are passed over next, in the given
state. -/
inductive ScriptMove (s : ScriptScan) (st : ScriptState) (place : Nat) (c : Char)
    (rest : List Char) : Nat → ScriptState → Prop
  /-- Nothing but passing over characters. -/
  | pass (skip : Nat) : ScriptMove s st place c rest skip st
  /-- From the children of an element into code. -/
  | enter : ScriptMove s st place c rest 0 { st with frames := .code 0 [] :: st.frames }
  | openBrace : ScriptMove s st place c rest 0 { st with frames := openBrace st.frames }
  | closeBrace : ScriptMove s st place c rest 0 { st with frames := closeBrace st.frames }
  /-- A closing tag, up to whose end everything inside its element ends. -/
  | close {name : List Char} {skip : Nat} {sites : List Site} {frames : List Frame}
      (hle : skip ≤ rest.length)
      (hclose : closeElements? name (place + 1 + skip) st.frames = some (sites, frames)) :
      ScriptMove s st place c rest skip { st with frames := recordSites sites frames }
  /-- A start tag without content. -/
  | selfClosing {tag : Tag} (hc : c = '<')
      (htag : readTag s.settings .jsx s.scan st.count place rest = .ok (some tag)) :
      ScriptMove s st place c rest (tag.stop - (place + 1))
        ⟨recordSites (tag.sites tag.stop) st.frames, st.count + (tag.sites tag.stop).length⟩
  /-- A start tag that opens an element. -/
  | openTag {tag : Tag} (hc : c = '<')
      (htag : readTag s.settings .jsx s.scan st.count place rest = .ok (some tag)) :
      ScriptMove s st place c rest (tag.stop - (place + 1))
        ⟨.children tag.name tag.site tag.inner :: st.frames,
          st.count + (tag.sites tag.stop).length⟩
  /-- A call of an element factory. -/
  | call {site : Site} (hc : Script.isIdentStart c = true)
      (hsite : callSite s.settings st.count place (place + Script.pathLength (c :: rest))
        ((c :: rest).drop (Script.pathLength (c :: rest))) = .ok (some site)) :
      ScriptMove s st place c rest (Script.pathLength (c :: rest) - 1)
        ⟨recordSites [site] st.frames, st.count + 1⟩

section Script

variable {s : ScriptScan} {st st' : ScriptState} {place skip : Nat} {c : Char}
  {before rest : List Char}

/-- A step at a `<` where a tag may begin. -/
theorem openStep_move (hc : c = '<') (h : openStep s st place rest = .ok (skip, st')) :
    ScriptMove s st place c rest skip st' := by
  rw [openStep] at h
  split at h
  · cases h
  · cases h
    exact .pass _
  · next tag htag =>
    cases h
    split
    · exact .selfClosing hc htag
    · exact .openTag hc htag

/-- A step at a closing tag. -/
theorem closeStep_move (h : closeStep st place rest = (skip, st')) (hhead : rest.head? = some '/') :
    ScriptMove s st place c rest skip st' := by
  simp only [closeStep] at h
  split at h
  · next t hgt =>
    split at h
    · next sites frames hclose =>
      cases h
      refine .close ?_ hclose
      -- The closing tag is there up to its `>`.
      obtain ⟨rest, rfl⟩ : ∃ t, rest = '/' :: t := by
        cases rest with
        | nil => cases hhead
        | cons d t => exact ⟨t, by rw [Option.some.inj hhead]⟩
      have hname := (List.takeWhile_sublist isTagChar (l := Script.skipSpace rest)).length_le
      have hrest := length_skipSpace rest
      have hafter := length_skipSpace ((Script.skipSpace rest).drop
        ((Script.skipSpace rest).takeWhile isTagChar).length)
      simp only [List.drop_one, List.tail_cons, List.length_cons, List.length_drop] at hgt hafter ⊢
      rw [hgt, List.length_cons] at hafter
      omega
    · cases h
      exact .pass _
  · cases h
    exact .pass _

/-- A step at an identifier. -/
theorem identStep_move (hc : Script.isIdentStart c = true)
    (h : identStep s st place before c rest = .ok (skip, st')) :
    ScriptMove s st place c rest skip st' := by
  rw [identStep] at h
  split at h
  · cases h
    exact .pass _
  · split at h
    · cases h
    · cases h
      exact .pass _
    · next site hsite =>
      cases h
      exact .call hc hsite

/-- What a step of the scan of code can do. -/
theorem scriptStep_move (h : scriptStep s st place before c rest = .ok (skip, st')) :
    ScriptMove s st place c rest skip st' := by
  rw [scriptStep] at h
  split at h
  · rw [childrenStep] at h
    split at h
    · cases h
      exact .enter
    split at h
    · next hc =>
      split at h
      · next hhead => exact closeStep_move (Except.ok.inj h) hhead
      · exact openStep_move hc h
    · cases h
      exact .pass _
  -- In code only braces, tags and identifiers do anything. Comments, regular expressions, strings
  -- and templates are passed over.
  · rw [scriptCodeStep] at h
    split at h
    · cases h
      exact .pass _
    split at h
    · cases h
      exact .pass _
    split at h
    · split at h <;> cases h <;> exact .pass _
    split at h
    · cases h
      exact .openBrace
    split at h
    · cases h
      exact .closeBrace
    split at h
    · next hopen =>
      simp only [Bool.and_eq_true, decide_eq_true_eq] at hopen
      exact openStep_move hopen.1.1.1 h
    split at h
    · next hc => exact identStep_move hc h
    · cases h
      exact .pass _

end Script

/-! ### Template markup -/

/-- What a step at the `<` of markup does: so many characters are passed over next, in the given
state. -/
inductive MarkupMove (settings : ScanSettings) (script : Bool → InnerScan) (st : MarkupState)
    (place : Nat) (rest : List Char) : Nat → MarkupState → Prop
  /-- Nothing but passing over characters. -/
  | pass (skip : Nat) : MarkupMove settings script st place rest skip st
  /-- A closing tag, up to whose end everything inside its element ends. -/
  | close {name : List Char} {skip : Nat} {sites : List Site} {elements : List OpenElement}
      (hle : skip ≤ rest.length)
      (hclose : closeNamed? name (place + 1 + skip) st.elements = some (sites, elements)) :
      MarkupMove settings script st place rest skip ({ st with elements }.place sites)
  /-- A start tag without content. -/
  | void {tag : Tag}
      (htag : readTag settings .markup (fun _ _ => .ok []) st.count place rest = .ok (some tag)) :
      MarkupMove settings script st place rest (tag.stop - place - 1)
        (st.record (tag.sites tag.stop))
  /-- A `script` element with its code. -/
  | code {tag : Tag} {jsx : Bool} {length after : Nat} {found : List Site}
      (htag : readTag settings .markup (fun _ _ => .ok []) st.count place rest = .ok (some tag))
      (hle : length ≤ (('<' :: rest).drop (tag.stop - place)).length)
      (hfound : script jsx (st.record (tag.sites place)).count
        ⟨tag.stop, some '>', (('<' :: rest).drop (tag.stop - place)).take length⟩ = .ok found) :
      MarkupMove settings script st place rest (tag.stop - place - 1 + length + after)
        ((st.record (tag.sites place)).record found)
  /-- A `style` element with what is in it. -/
  | style {tag : Tag} {length : Nat}
      (htag : readTag settings .markup (fun _ _ => .ok []) st.count place rest = .ok (some tag)) :
      MarkupMove settings script st place rest (tag.stop - place - 1 + length)
        (st.record (tag.sites place))
  /-- A start tag that opens an element. -/
  | openTag {tag : Tag}
      (htag : readTag settings .markup (fun _ _ => .ok []) st.count place rest = .ok (some tag)) :
      MarkupMove settings script st place rest (tag.stop - place - 1)
        { st with
          elements := ⟨tag.name, tag.site, tag.inner⟩ :: st.elements
          count := st.count + (tag.sites tag.stop).length }

section Markup

variable {settings : ScanSettings} {script : Bool → InnerScan} {st st' : MarkupState}
  {place skip : Nat} {rest : List Char}

private theorem closingStep_move (h : closingStep st place rest = (skip, st')) :
    MarkupMove settings script st place ('/' :: rest) skip st' := by
  simp only [closingStep] at h
  split at h
  · next sites elements hclose =>
    cases h
    refine .close ?_ hclose
    have hname := (List.takeWhile_sublist isTagChar (l := Script.skipSpace rest)).length_le
    have hrest := length_skipSpace rest
    have hgt := lengthThrough_le '>' ((Script.skipSpace rest).drop
      ((Script.skipSpace rest).takeWhile isTagChar).length)
    rw [List.length_drop] at hgt
    rw [List.length_cons]
    omega
  · cases h
    exact .pass _

/-- A step behind a start tag. -/
theorem tagStep_move {tag : Tag}
    (htag : readTag settings .markup (fun _ _ => .ok []) st.count place rest = .ok (some tag))
    (h : tagStep script st place ('<' :: rest) tag = .ok (skip, st')) :
    MarkupMove settings script st place rest skip st' := by
  rw [tagStep] at h
  dsimp only at h
  split at h
  · cases h
    exact .void htag
  split at h
  · split at h
    · cases h
    next found hfound =>
    cases h
    exact .code htag (Offset.lengthBefore_le _ _) hfound
  split at h
  · cases h
    rw [Nat.add_assoc]
    exact .style htag
  · cases h
    exact .openTag htag

/-- What a step of the scan of markup can do. -/
theorem markupStep_move (h : markupStep settings script st place rest = .ok (skip, st')) :
    MarkupMove settings script st place rest skip st' := by
  unfold markupStep at h
  split at h
  · split at h <;> cases h <;> exact .pass _
  · exact closingStep_move (Except.ok.inj h)
  · cases h
    exact .pass _
  · cases h
    exact .pass _
  · split at h
    · cases h
    · cases h
      exact .pass _
    · next tag htag => exact tagStep_move htag h

end Markup

end ComponentAudit
