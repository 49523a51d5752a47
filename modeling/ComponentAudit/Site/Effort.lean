import ComponentAudit.Site.Markup

/-!
# Looks at the clock

The time of a scan is limited, and the scan looks at the clock to see whether it is over. It does so
before it searches for a bracket or a backtick that may not close before the end of the text, before
it records a site, and besides after every so many turns of its loops. A look that finds the time
over ends the scan; any other look changes nothing. So what a scan finds is one thing, and how often
it looks at the clock meanwhile is another: `scanScript` and `scanMarkup` say the first, and the
functions here the second.

Each of them goes with the function of the scan whose looks it counts, takes the same steps, and
stops where that one fails. They are given what the scan has spent so far and give what it has spent
in the end.
-/

namespace ComponentAudit

/-- What a scan has spent. -/
structure Effort where
  /-- Turns of the loops. -/
  turns : Nat := 0
  /-- Looks at the clock besides those that come with the turns. -/
  looks : Nat := 0
  deriving DecidableEq, Repr

namespace Effort

/-- Number of turns that bring a look at the clock. -/
def turnsPerLook : Nat := 1024

/-- So many turns more. -/
def turn (e : Effort) (n : Nat) : Effort := { e with turns := e.turns + n }

/-- A look more. -/
def look (e : Effort) : Effort := { e with looks := e.looks + 1 }

/-- A look more, if the condition holds. -/
def lookIf (e : Effort) (condition : Bool) : Effort := if condition then e.look else e

/-- All looks at the clock. -/
def allLooks (e : Effort) : Nat := e.looks + e.turns / turnsPerLook

@[simp]
theorem looks_turn (e : Effort) (n : Nat) : (e.turn n).looks = e.looks := rfl

@[simp]
theorem looks_look (e : Effort) : e.look.looks = e.looks + 1 := rfl

@[simp]
theorem looks_lookIf (e : Effort) (condition : Bool) :
    (e.lookIf condition).looks = e.looks + condition.toNat := by
  cases condition <;> rfl

end Effort

/-- What the scan of an inner region spends, given the number of sites recorded so far. -/
abbrev InnerEffort := Nat → Region → Effort → Effort

/-! ### Calls -/

/-- Whether an object literal opens as the next argument. -/
def opensObject (rest : List Char) : Bool :=
  match Script.skipSpace rest with
  | ',' :: s => (Script.skipSpace s).head? = some '\x7b'
  | _ => false

/-- What the reading of a call spends: it searches for the closing parenthesis, records the site
and searches for the end of an object literal. -/
def callEffort (settings : ScanSettings) (count start : Nat) (text : List Char) (e : Effort) :
    Effort :=
  match Script.skipSpace text with
  | '(' :: s =>
    -- The closing parenthesis is searched for whatever is called.
    match calledElement? settings.marker (callArguments 0 s).1 with
    | none => e.look
    | some (tag, rest) =>
      match canonicalName? settings.marker tag with
      | none => e.look
      | some name =>
        match newSite settings count tag name start with
        | .error _ => e.look
        | .ok _ => e.look.look.lookIf (opensObject rest)
  | _ => e

/-! ### Start tags -/

/-- Whether the value of the attribute at the start of the text opens with a brace. -/
def opensValue (s : List Char) : Bool :=
  match Script.skipSpace (s.dropWhile isAttrChar) with
  | '=' :: value => (Script.skipSpace value).head? = some '\x7b'
  | _ => false

/-- Whether what begins among the attributes of a tag is or has an expression in braces, whose end
is searched for. -/
def opensExpression (c : Char) (rest : List Char) : Bool :=
  c = '\x7b' || isAttrStart c && opensValue (c :: rest)

/-- What the scan of an attribute expression spends. Template markup has none to scan. -/
def attributeEffort (flavor : Flavor) (inner : InnerEffort) (count place : Nat) (a : Attribute)
    (e : Effort) : Effort :=
  match flavor, a.value with
  | .jsx, .expr code => inner count ⟨place + a.valueStart, some '\x7b', code⟩ e
  | _, _ => e

/-- What the reading of the attributes of a tag spends: a turn for each of them and for the end of
the text. Blanks belong to the turn of what follows them. -/
def tagWalkEffort (flavor : Flavor) (scan : InnerScan) (inner : InnerEffort) (st : TagState)
    (place : Nat) : Nat → List Char → Effort → Effort
  | _, [], e => e.turn 1
  | skip + 1, _ :: rest, e => tagWalkEffort flavor scan inner st (place + 1) skip rest e
  | 0, c :: rest, e =>
    if Text.isSpace c then tagWalkEffort flavor scan inner st (place + 1) 0 rest e
    else
      let e := (e.turn 1).lookIf (opensExpression c rest)
      match tagPart flavor c rest with
      | .close _ _ => e
      | .broken => e
      | .pass skip => tagWalkEffort flavor scan inner st (place + 1) skip rest e
      | .spread skip =>
        tagWalkEffort flavor scan inner
          { st with site := st.site.map fun s => { s with spread := true } } (place + 1) skip rest e
      | .attribute a =>
        let e := attributeEffort flavor inner st.count place a e
        match st.addAttribute flavor scan place a with
        | .error _ => e
        | .ok st => tagWalkEffort flavor scan inner st (place + 1) (a.length - 1) rest e

/-- What the reading of a start tag spends. -/
def readTagEffort (settings : ScanSettings) (flavor : Flavor) (scan : InnerScan)
    (inner : InnerEffort) (count start : Nat) (text : List Char) (e : Effort) : Effort :=
  match text with
  | [] => e
  | c :: _ =>
    if c = '>' && flavor = .jsx then e
    else if !c.isAlpha then e
    else
      let name := text.takeWhile isTagChar
      let rest := text.drop name.length
      if !endsTagName rest then e
      -- A tag that is no component records nothing, but its attributes are read all the same.
      else match tagSite settings count name start with
        | .error _ => e
        | .ok site =>
          tagWalkEffort flavor scan inner ⟨site, [], count + site.toList.length⟩
            (start + 1 + name.length) 0 rest (e.lookIf site.isSome)

/-! ### Script code -/

/-- What the step at an identifier spends. -/
def identEffort (s : ScriptScan) (st : ScriptState) (place : Nat) (before : List Char) (c : Char)
    (rest : List Char) (e : Effort) : Effort :=
  let length := Script.pathLength (c :: rest)
  if !elementFactories.contains ((c :: rest).take length) ||
      (before.head?.or s.lead) = some '.' then e
  else callEffort s.settings st.count place ((c :: rest).drop length) e

/-- What the step in code spends. -/
def scriptCodeEffort (s : ScriptScan) (inner : InnerEffort) (st : ScriptState) (place : Nat)
    (before : List Char) (c : Char) (rest : List Char) (e : Effort) : Effort :=
  let e := e.turn 1
  match (Script.commentLength? (c :: rest)).or (Script.regexLength? before (c :: rest)) with
  | some _ => e
  | none =>
    if c = '`' then e.look
    else if c = '<' && s.jsx && tagMayStart rest && Script.expressionMayStart before then
      readTagEffort s.settings .jsx s.scan inner st.count place rest e
    else if Script.isIdentStart c then identEffort s st place before c rest e
    else e

/-- What the step among the children of an element spends. Their text is passed over byte by
byte. -/
def childrenEffort (s : ScriptScan) (inner : InnerEffort) (st : ScriptState) (place : Nat)
    (c : Char) (rest : List Char) (e : Effort) : Effort :=
  let e := e.turn c.utf8Size
  if c = '<' && rest.head? ≠ some '/' then
    readTagEffort s.settings .jsx s.scan inner st.count place rest e
  else e

/-- What a step through script code spends. -/
def scriptStepEffort (s : ScriptScan) (inner : InnerEffort) (st : ScriptState) (place : Nat)
    (before : List Char) (c : Char) (rest : List Char) (e : Effort) : Effort :=
  match st.frames with
  | .children _ _ _ :: _ => childrenEffort s inner st place c rest e
  | _ => scriptCodeEffort s inner st place before c rest e

/-- What the walk through a region of script code spends. -/
def scriptWalkEffort (s : ScriptScan) (inner : InnerEffort) (st : ScriptState) (place : Nat)
    (before : List Char) : Nat → List Char → Effort → Effort
  | _, [], e => e
  | skip + 1, c :: rest, e =>
    scriptWalkEffort s inner st (place + 1) (c :: before) skip rest e
  | 0, c :: rest, e =>
    let e := scriptStepEffort s inner st place before c rest e
    match scriptStep s st place before c rest with
    | .error _ => e
    | .ok (skip, st) => scriptWalkEffort s inner st (place + 1) (c :: before) skip rest e

/-- What the scan of a region spends, with the given scan for attribute expressions. -/
def scanRegionEffort (settings : ScanSettings) (jsx : Bool) (scan : InnerScan)
    (inner : InnerEffort) (count : Nat) (region : Region) (e : Effort) : Effort :=
  scriptWalkEffort ⟨settings, jsx, scan, region.lead⟩ inner ⟨[.code 0 []], count⟩ region.start [] 0
    region.chars e

/-- What the scan of a region of script code spends. An expression below the last level is not
scanned. -/
def scanScriptEffort (settings : ScanSettings) : (levels : Nat) → (jsx : Bool) → InnerEffort
  | 0, jsx => scanRegionEffort settings jsx (fun _ _ => .ok []) fun _ _ e => e
  | levels + 1, jsx =>
    scanRegionEffort settings jsx (scanScript settings levels true)
      (scanScriptEffort settings levels true)

/-! ### Template markup -/

/-- What the step at a start tag that has been read spends: the body of a `script` element is
scanned. -/
def tagStepEffort (script : Bool → InnerEffort) (st : MarkupState) (place : Nat)
    (text : List Char) (tag : Tag) (e : Effort) : Effort :=
  let length := tag.stop - place
  let body := text.drop length
  let lowerName := tag.name.map Text.lowerAscii
  if tag.selfClosing || voidElements.contains lowerName then e
  else if lowerName = "script".toList then
    script (hasTagLang false (text.take length)) (st.record (tag.sites place)).count
      ⟨tag.stop, some '>', body.take (lengthBefore "</script".toList body)⟩ e
  else e

/-- What the step at a `<` spends. -/
def markupStepEffort (settings : ScanSettings) (script : Bool → InnerEffort) (st : MarkupState)
    (place : Nat) (rest : List Char) (e : Effort) : Effort :=
  match rest with
  | '!' :: _ => e
  | '/' :: _ => e
  | '?' :: _ => e
  | _ =>
    let e := readTagEffort settings .markup (fun _ _ => .ok []) (fun _ _ e => e) st.count place
      rest e
    match readTag settings .markup (fun _ _ => .ok []) st.count place rest with
    | .ok (some tag) => tagStepEffort script st place ('<' :: rest) tag e
    | _ => e

/-- What the walk through markup spends: a turn for each `<`, and one that finds none in what is
left of the text. -/
def markupWalkEffort (settings : ScanSettings) (scan : Bool → InnerScan)
    (script : Bool → InnerEffort) (st : MarkupState) (place : Nat) :
    Nat → List Char → Effort → Effort
  | _, [], e => e
  | skip + 1, _ :: rest, e => markupWalkEffort settings scan script st (place + 1) skip rest e
  | 0, c :: rest, e =>
    if c = '<' then
      let e := markupStepEffort settings script st place rest (e.turn 1)
      match markupStep settings scan st place rest with
      | .error _ => e
      | .ok (skip, st) => markupWalkEffort settings scan script st (place + 1) skip rest e
    else
      markupWalkEffort settings scan script st (place + 1) 0 rest
        (if rest.isEmpty then e.turn 1 else e)

/-- What the scan of a text as markup spends. -/
def scanMarkupEffort (settings : ScanSettings) (levels : Nat) (text : List Char) (e : Effort) :
    Effort :=
  markupWalkEffort settings (scanScript settings levels) (scanScriptEffort settings levels) {} 0 0
    text e

end ComponentAudit
