import ComponentAudit.Proofs.Progress.Outcome
import ComponentAudit.Proofs.Table.Growth

/-!
# Scans only add to the table

A tag that is rejected leaves the table of sites as it was, and any scan that comes to an end leaves
alone what was in the table before it (`rejected_tag_leaves_no_trace`). The indices that the open
elements of a scan hold are therefore good for as long as they are held, also while other scans run
inside of it.

What a turn can do to the table and to the indices held is one of three things (`TableMove`): it
adds sites, it opens an element with one of the sites it adds, or it closes the innermost elements
and sets the ends of their sites. The invariant of a scan (`Valid`) is that the indices held are
those of different sites of its own, the innermost one last. So closing elements touches no site
that is still held (`TableMove.onward`), and at the end of the region, when all elements close,
nothing is touched that was there before (`scanRegion_adds`).

The nested scan is a hypothesis about every region (`Adds`), so that the scans of code and of tags,
which call each other, are settled by an induction on the levels.
-/

namespace ComponentAudit.Offset

/-! ### Indices held -/

/-- The index of the site of the element that a mode is inside of. -/
def Mode.site? : Mode → Option Nat
  | .code _ => none
  | .children _ site => site

/-- The indices that modes hold, innermost first. -/
def held (modes : List Mode) : List Nat := modes.filterMap Mode.site?

@[simp] theorem held_code (braces : Nat) (modes : List Mode) :
    held (.code braces :: modes) = held modes := rfl

private theorem held_children (tag : List Char) (site : Option Nat) (modes : List Mode) :
    held (.children tag site :: modes) = site.toList ++ held modes := by
  cases site <;> rfl

@[simp] theorem held_append (a b : List Mode) : held (a ++ b) = held a ++ held b :=
  List.filterMap_append

private theorem held_pushBrace (modes : List Mode) : held (pushBrace modes) = held modes := by
  unfold pushBrace
  split <;> rfl

private theorem held_popBrace (modes : List Mode) : held (popBrace modes) = held modes := by
  unfold popBrace
  split <;> rfl

/-- The indices that a scan holds, and the table. -/
abbrev Held := List Nat × List Site

/-- What a scan of code holds. -/
def ofModes (st : ModeState) : Held := (held st.1, st.2)

/-- What a scan of markup holds. -/
def ofTags (st : OpenState) : Held := (held (st.1.map OpenTag.mode), st.2)

/-- The entries that were there before the scan are as they were, and the indices held are of
different entries that it has added, innermost and latest first. -/
structure Valid (base : List Site) (x : Held) : Prop where
  kept : base <+: x.2
  descending : x.1.Pairwise (· > ·)
  bounds : ∀ k ∈ x.1, base.length ≤ k ∧ k < x.2.length

/-- From one state of a scan to a later one: the table has become no shorter, and an index that is
held, unless it is of a new entry, was held before and has the entry that it had. -/
structure Onward (x y : Held) : Prop where
  length_le : x.2.length ≤ y.2.length
  entry : ∀ k ∈ y.1, k < x.2.length → k ∈ x.1 ∧ y.2[k]? = x.2[k]?

/-- The start of a scan. -/
theorem Valid.start (base : List Site) : Valid base ([], base) :=
  ⟨List.prefix_refl base, .nil, nofun⟩

theorem Onward.refl (x : Held) : Onward x x := ⟨Nat.le_refl _, fun _ hk _ => ⟨hk, rfl⟩⟩

theorem Onward.trans {x y z : Held} (h : Onward x y) (h' : Onward y z) : Onward x z := by
  refine ⟨Nat.le_trans h.length_le h'.length_le, fun k hk hlt => ?_⟩
  obtain ⟨hheld, hentry⟩ := h'.entry k hk (Nat.lt_of_lt_of_le hlt h.length_le)
  obtain ⟨hheld', hentry'⟩ := h.entry k hheld hlt
  exact ⟨hheld', hentry.trans hentry'⟩

/-! ### Moves -/

/-- What a turn does to the indices held and to the table. -/
inductive TableMove : Held → Held → Prop
  /-- Sites are added. -/
  | add {indices : List Nat} {table table' : List Site} (h : table <+: table') :
      TableMove (indices, table) (indices, table')
  /-- Sites are added, and the index of one of them is held from then on. -/
  | openElement {indices : List Nat} {table table' : List Site} {k : Nat} (h : table <+: table')
      (hlo : table.length ≤ k) (hhi : k < table'.length) :
      TableMove (indices, table) (k :: indices, table')
  /-- The sites of the innermost elements change, and their indices are held no more. -/
  | close {closed rest : List Nat} {table table' : List Site}
      (hlength : table'.length = table.length) (h : ∀ k, k ∉ closed → table'[k]? = table[k]?) :
      TableMove (closed ++ rest, table) (rest, table')

theorem TableMove.refl (x : Held) : TableMove x x := .add (List.prefix_refl x.2)

/-- A tag opens an element, with a site or without. -/
theorem TableMove.openTag {table table' : List Site} {site : Option Nat} (indices : List Nat)
    (h : table <+: table') (hsite : ∀ k ∈ site, k = table.length ∧ k < table'.length) :
    TableMove (indices, table) (site.toList ++ indices, table') := by
  cases site with
  | none => exact .add h
  | some k =>
    obtain ⟨rfl, hlt⟩ := hsite k rfl
    exact .openElement h (Nat.le_refl _) hlt

section Moves

variable {base : List Site} {x y : Held}

/-- **Indices stay valid**, whatever a turn does. -/
theorem TableMove.valid (hmove : TableMove x y) (h : Valid base x) : Valid base y := by
  obtain ⟨hkept, hdescending, hbounds⟩ := h
  cases hmove with
  | add hadded =>
    have hle := hadded.length_le
    exact ⟨hkept.trans hadded, hdescending, fun k hk =>
      ⟨(hbounds k hk).1, Nat.lt_of_lt_of_le (hbounds k hk).2 hle⟩⟩
  | openElement hadded hlo hhi =>
    have hle := hadded.length_le
    refine ⟨hkept.trans hadded, List.pairwise_cons.2 ⟨fun k hk => ?_, hdescending⟩, fun k hk => ?_⟩
    · exact Nat.lt_of_lt_of_le (hbounds k hk).2 hlo
    · rcases List.mem_cons.1 hk with rfl | hk
      · exact ⟨Nat.le_trans hkept.length_le hlo, hhi⟩
      · exact ⟨(hbounds k hk).1, Nat.lt_of_lt_of_le (hbounds k hk).2 hle⟩
  | @close closed rest table table' hlength hsame =>
    have hbase : KeptBelow base.length table table' :=
      ⟨Nat.le_of_eq hlength.symm, fun k hk => hsame k fun hclosed =>
        Nat.not_le_of_lt hk (hbounds k (List.mem_append_left rest hclosed)).1⟩
    refine ⟨hbase.isPrefix hkept, (List.pairwise_append.1 hdescending).2.1, fun k hk => ?_⟩
    rw [hlength]
    exact hbounds k (List.mem_append_right closed hk)

/-- The indices that stay held are below those of the elements that close. -/
theorem TableMove.onward (hmove : TableMove x y) (h : Valid base x) : Onward x y := by
  cases hmove with
  | add hadded =>
    have hkept := KeptBelow.of_isPrefix hadded (Nat.le_refl _)
    exact ⟨hadded.length_le, fun k hk hlt => ⟨hk, hkept.getElem?_eq k hlt⟩⟩
  | openElement hadded hlo hhi =>
    have hkept := KeptBelow.of_isPrefix hadded (Nat.le_refl _)
    refine ⟨hadded.length_le, fun k hk hlt => ⟨?_, hkept.getElem?_eq k hlt⟩⟩
    rcases List.mem_cons.1 hk with rfl | hk
    · exact absurd hlt (Nat.not_lt_of_le hlo)
    · exact hk
  | @close closed rest table table' hlength hsame =>
    obtain ⟨-, -, habove⟩ := List.pairwise_append.1 h.descending
    refine ⟨Nat.le_of_eq hlength.symm, fun k hk _ => ⟨List.mem_append_right closed hk, ?_⟩⟩
    exact hsame k fun hclosed => Nat.lt_irrefl k (habove k hclosed k hk)

end Moves

/-! ### Closing -/

/-- When everything ends, only the entries held by open elements change. -/
theorem endAll_gives (stop : Nat) (modes : List Mode) (table : List Site) :
    Gives (endAll stop modes table) fun table' =>
      table'.length = table.length ∧ ∀ k, k ∉ held modes → table'[k]? = table[k]? := by
  induction modes with
  | nil => exact .ok ⟨rfl, fun _ _ => rfl⟩
  | cons m modes ih =>
    refine ih.bind fun inner hinner => ?_
    have hinner' : ∀ k, k ∉ held (m :: modes) → inner[k]? = table[k]? := fun k hk =>
      hinner.2 k fun hmem => hk ((List.sublist_cons_self m modes).filterMap _ |>.subset hmem)
    unfold endMode
    split
    · refine (updateAt_gives inner _ _).mono fun table' h => ⟨h.1.trans hinner.1, fun k hk => ?_⟩
      refine (h.2 k fun hsite => hk ?_).trans (hinner' k hk)
      rw [held_children, hsite]
      exact List.mem_cons_self
    · exact .ok ⟨hinner.1, hinner'⟩

/-- At the end of a scan nothing changes that was there before it. -/
theorem endAll_adds {base table : List Site} {modes : List Mode}
    (h : Valid base (held modes, table)) (stop : Nat) :
    Gives (endAll stop modes table) (base <+: ·) := by
  refine (endAll_gives stop modes table).mono fun table' hend => ?_
  have hmove : TableMove (held modes ++ [], table) ([], table') := .close hend.1 hend.2
  rw [List.append_nil] at hmove
  exact (hmove.valid h).kept

private theorem append_of_closing? {name : List Char} {modes closed rest : List Mode}
    (h : closing? name modes = some (closed, rest)) : modes = closed ++ rest := by
  induction modes generalizing closed with
  | nil => cases h
  | cons m modes ih =>
    cases m with
    | code braces => cases h
    | children tag site =>
      rw [closing?] at h
      split at h
      · cases h
        rfl
      · obtain ⟨⟨closed', rest'⟩, hclosing, heq⟩ := Option.map_eq_some_iff.1 h
        cases heq
        rw [ih hclosing]
        rfl

private theorem append_of_closingNamed? {name : List Char} {tags closed rest : List OpenTag}
    (h : closingNamed? name tags = some (closed, rest)) : tags = closed ++ rest := by
  induction tags generalizing closed with
  | nil => cases h
  | cons t tags ih =>
    rw [closingNamed?] at h
    split at h
    · cases h
      rfl
    · obtain ⟨⟨closed', rest'⟩, hclosing, heq⟩ := Option.map_eq_some_iff.1 h
      cases heq
      rw [ih hclosing]
      rfl

/-- Closing elements is a move. -/
theorem endAll_moves (stop : Nat) (closed : List Mode) (rest : List Nat) (table : List Site) :
    Gives (endAll stop closed table) fun table' =>
      TableMove (held closed ++ rest, table) (rest, table') :=
  (endAll_gives stop closed table).mono fun _ h => .close h.1 h.2

/-! ### Turns -/

/-- A turn is a move, whether the loop goes on or not. -/
def Turn.Moves {σ : Type} (view : σ → Held) (st : σ) : Turn σ σ → Prop :=
  Turn.Has (fun st' => TableMove (view st) (view st')) fun st' => TableMove (view st) (view st')

/-- The site of an element that ends with its tag is one of those that are added. -/
theorem onSite_adds {table table' : List Site} {site : Option Nat} (h : table <+: table')
    (hsite : ∀ k ∈ site, k = table.length ∧ k < table'.length) (f : Site → Site) :
    Gives (onSite site table' fun k => updateAt table' k f) (table <+: ·) :=
  (onSite_keptBelow (fun k hk => Nat.le_of_eq (hsite k hk).1.symm) table' fun _ hk =>
    updateAt_keptBelow hk table' f).mono fun _ hended => hended.isPrefix h

section Code

variable {r : ScriptRun} (hscan : Adds r.scan) (st : ModeState) (i : Nat)

include hscan in
/-- A turn at a `<` where a tag may begin. -/
theorem openTurn_moves : Gives (openTurn r st i) (Turn.Moves ofModes st) := by
  obtain ⟨modes, table⟩ := st
  refine (readTag_gives hscan r.settings r.text .jsx table i r.bound).bind
    fun ⟨tag?, added⟩ hleaves => ?_
  have hadded : table <+: added := hleaves.added
  cases tag? with
  | none => exact .ok (TableMove.add hadded)
  | some tag =>
    have hsite := hleaves.site tag rfl
    dsimp only
    split
    · exact (onSite_adds hadded hsite _).bind fun _ hended => .ok (TableMove.add hended)
    · refine .ok ?_
      have hmove := TableMove.openTag (held modes) hadded hsite
      rwa [← held_children tag.name] at hmove

/-- A turn at a closing tag. -/
theorem closeTurn_moves : Gives (closeTurn r st i) (Turn.Moves ofModes st) := by
  obtain ⟨modes, table⟩ := st
  refine .after _ fun nameStart => .after _ fun nameEnd => .after _ fun gt => .after _ fun b => ?_
  split
  · refine .after _ fun name => ?_
    split
    · exact .ok (TableMove.refl _)
    · next closed rest hclosing =>
      obtain rfl : modes = closed ++ rest := append_of_closing? hclosing
      refine (endAll_moves (gt + 1) closed (held rest) table).bind fun ended hmove => .ok ?_
      rwa [← held_append] at hmove
  · exact .ok (TableMove.refl _)

/-- A turn at an identifier. -/
theorem identTurn_moves : Gives (identTurn r st i) (Turn.Moves ofModes st) := by
  refine .after _ fun j => .after _ fun path => ?_
  split
  · refine .after _ fun dot => ?_
    split
    · exact .ok (TableMove.refl _)
    · exact (callAt_gives r.settings r.text st.2 i j r.bound).bind fun _ hadded =>
        .ok (TableMove.add hadded)
  · exact .ok (TableMove.refl _)

/-- A turn that changes neither the table nor what is held. -/
theorem gives_same (modes : List Mode) (h : held modes = held st.1) (j : Nat) :
    Gives (.ok (Turn.next (modes, st.2) j)) (Turn.Moves ofModes st) := by
  refine .ok ?_
  show TableMove (held st.1, st.2) (held modes, st.2)
  rw [h]
  exact .refl _

include hscan in
/-- A turn of the scan of code is a move. -/
theorem scriptTurn_moves : Gives (scriptTurn r st i) (Turn.Moves ofModes st) := by
  have hsame : ∀ j, Gives (.ok (Turn.next st j)) (Turn.Moves ofModes st) := fun _ =>
    .ok (TableMove.refl _)
  refine .after _ fun u => ?_
  split
  · unfold childrenTurn
    split
    · exact gives_same st (.code 0 :: st.1) rfl _
    split
    · refine .after _ fun slash => ?_
      split
      · exact closeTurn_moves st i
      · exact openTurn_moves hscan st i
    · exact hsame _
  · refine .after _ fun skipped? => ?_
    split
    · exact hsame _
    split
    · exact .after _ hsame
    split
    · refine .after _ fun close? => ?_
      split <;> exact hsame _
    split
    · exact gives_same st _ (held_pushBrace st.1) _
    split
    · exact gives_same st _ (held_popBrace st.1) _
    refine .after _ fun opens => ?_
    split
    · exact openTurn_moves hscan st i
    split
    · exact identTurn_moves st i
    · exact hsame _

end Code

section Markup

variable {r : MarkupRun} (hscript : ∀ jsx, Adds (r.script jsx)) (st : OpenState) (i : Nat)

/-- A turn at a closing tag of markup. -/
theorem closingTurn_moves : Gives (closingTurn r st i) (Turn.Moves ofTags st) := by
  obtain ⟨tags, table⟩ := st
  refine .after _ fun nameStart => .after _ fun nameEnd => .after _ fun after => ?_
  refine .after _ fun name => ?_
  split
  · exact .ok (TableMove.refl _)
  · next closed rest hclosing =>
    obtain rfl : tags = closed ++ rest := append_of_closingNamed? hclosing
    refine (endAll_moves _ (closed.map OpenTag.mode) (held (rest.map OpenTag.mode)) table).bind
      fun ended hmove => .ok ?_
    rwa [← held_append, ← List.map_append] at hmove

include hscript in
/-- A turn at a start tag of markup. -/
theorem startTurn_moves {tags : List OpenTag} {table table' : List Site} {tag : Tag}
    (hadded : table <+: table') (hsite : ∀ k ∈ tag.site, k = table.length ∧ k < table'.length) :
    Gives (startTurn r tags table' i tag) (Turn.Moves ofTags (tags, table)) := by
  unfold startTurn
  dsimp only
  split
  · refine .after _ fun stop => .after _ fun own => ?_
    refine (hscript _ table' _ _).bind fun table'' hcode => .after _ fun body => ?_
    exact .ok (TableMove.add (hadded.trans hcode))
  split
  · exact .after _ fun stop => .after _ fun body => .ok (TableMove.add hadded)
  split
  · exact (onSite_adds hadded hsite _).bind fun _ hended => .ok (TableMove.add hended)
  · refine .ok ?_
    have hmove := TableMove.openTag (held (tags.map OpenTag.mode)) hadded hsite
    rwa [← held_children tag.name] at hmove

include hscript in
/-- A turn of the scan of markup is a move. -/
theorem markupTurn_moves : Gives (markupTurn r st i) (Turn.Moves ofTags st) := by
  have hsame : ∀ j, Gives (.ok (Turn.next st j)) (Turn.Moves ofTags st) := fun _ =>
    .ok (TableMove.refl _)
  refine .after _ fun here => ?_
  split
  · exact .ok (TableMove.refl _)
  refine .after _ fun rest => ?_
  split
  · exact hsame _
  split
  · exact closingTurn_moves st _
  split
  · exact hsame _
  refine (readTag_gives adds_nothing r.settings r.text .markup st.2 _ r.bound).bind
    fun ⟨tag?, added⟩ hleaves => ?_
  cases tag? with
  | none => exact .ok (TableMove.add hleaves.added)
  | some tag => exact startTurn_moves hscript _ hleaves.added (hleaves.site tag rfl)

end Markup

/-! ### Runs -/

section Runs

variable {σ : Type} {view : σ → Held} {step : σ → Nat → Checked (Turn σ σ)} {bound : Nat}
  {base : List Site} {st st' : σ}

/-- Along a loop whose turns are moves, indices stay valid. -/
theorem valid_of_reaches (hstep : ∀ st k, Gives (step st k) (Turn.Moves view st))
    (h : Valid base (view st)) {i j : Nat} (hreach : Reaches bound step st i st' j) :
    Valid base (view st') ∧ Onward (view st) (view st') := by
  refine hreach.invariant (P := fun st' => Valid base (view st') ∧ Onward (view st) (view st'))
    (R := fun _ => True) ⟨h, .refl _⟩ fun st' k hst' => (hstep st' k).mono fun turn hturn => ?_
  cases turn with
  | done => trivial
  | next st'' j => exact ⟨hturn.valid hst'.1, hst'.2.trans (hturn.onward hst'.1)⟩

/-- A loop whose turns are moves ends with valid indices. -/
theorem loop_valid (hstep : ∀ st k, Gives (step st k) (Turn.Moves view st))
    (h : Valid base (view st)) (i : Nat) :
    Gives (loop bound step (fun st _ => st) st i) fun st' => Valid base (view st') := by
  refine loop_gives (P := fun st => Valid base (view st)) (R := fun st => Valid base (view st))
    (fun st k hst => ?_) (fun _ _ hst => hst) h i
  refine (hstep st k).mono fun turn hturn => ?_
  cases turn with
  | done st' => exact hturn.valid hst
  | next st' j => exact hturn.valid hst

end Runs

/-- The scan of a region of code adds to the table, if the one of attribute expressions does. -/
theorem scanRegion_adds {settings : ScanSettings} {text : List Char} {jsx : Bool} {scan : Scan}
    (hscan : Adds scan) : Adds (scanRegion settings text jsx scan) := by
  intro table lo bound
  have hstart : Valid table (ofModes ([.code 0], table)) := .start table
  refine (loop_valid (fun st k => scriptTurn_moves hscan st k) hstart lo).bind
    fun ⟨modes, table'⟩ hvalid => ?_
  exact endAll_adds hvalid bound

/-- **A scan of script code** adds to the table and changes nothing below. -/
theorem scanScript_adds (settings : ScanSettings) (text : List Char) (levels : Nat) (jsx : Bool) :
    Adds (scanScript settings text levels jsx) := by
  induction levels generalizing jsx with
  | zero => exact scanRegion_adds adds_nothing
  | succ levels ih => exact scanRegion_adds (ih true)

/-- So does a scan of markup. -/
theorem scanMarkup_adds (settings : ScanSettings) (text : List Char) (levels : Nat) :
    Adds (scanMarkup settings text levels) := by
  intro table lo bound
  have hstart : Valid table (ofTags ([], table)) := .start table
  have hscript := scanScript_adds settings text levels
  refine (loop_valid (fun st k => markupTurn_moves hscript st k) hstart lo).bind
    fun ⟨tags, table'⟩ hvalid => ?_
  exact endAll_adds hvalid bound

private theorem nestedScan_adds (settings : ScanSettings) (text : List Char)
    (maxDepth depth : Nat) :
    Adds (nestedScan settings text maxDepth depth) := by
  unfold nestedScan
  split
  · exact scanScript_adds settings text _ true
  · exact adds_nothing

/-! ### Rejected tags -/

/-- The scan of attribute expressions by characters inside code at a depth. -/
def innerScan (settings : ScanSettings) (maxDepth depth : Nat) : InnerScan :=
  if depth + 1 ≤ maxDepth then ComponentAudit.scanScript settings (maxDepth - (depth + 1)) true
  else fun _ _ => .ok []

private theorem scanScript_eq_innerScan (settings : ScanSettings) (maxDepth depth : Nat)
    (jsx : Bool) :
    ComponentAudit.scanScript settings (maxDepth - depth) jsx =
      ComponentAudit.scanRegion settings jsx (innerScan settings maxDepth depth) := by
  unfold innerScan
  split
  · next h =>
    rw [show maxDepth - depth = maxDepth - (depth + 1) + 1 by omega]
    rfl
  · next h =>
    rw [show maxDepth - depth = 0 by omega]
    rfl

/-- What is nested in a region is scanned alike on both sides. -/
theorem nestedScan_agrees (settings : ScanSettings) (text : List Char) (maxDepth depth : Nat) :
    Agrees text (nestedScan settings text maxDepth depth)
      (innerScan settings maxDepth depth) := by
  unfold nestedScan innerScan
  split
  · exact scanScript_agrees settings text _ true
  · exact agrees_nothing

/-- In every state that a loop comes to, the indices held are valid, and they are still so in all
later states. `nested` scans the attribute expressions in code, and `script` the code in markup. -/
structure IndicesValid (settings : ScanSettings) (text : List Char) (nested : Scan)
    (script : Bool → Scan) : Prop where
  code : ∀ (jsx : Bool) (lo bound : Nat) (table : List Site) (st : ModeState) (i : Nat),
    let step := scriptTurn ⟨settings, text, jsx, nested, lo, bound⟩
    Reaches bound step ([.code 0], table) lo st i → Valid table (ofModes st) ∧
      ∀ st' j, Reaches bound step st i st' j → Onward (ofModes st) (ofModes st')
  markup : ∀ (lo bound : Nat) (table : List Site) (st : OpenState) (i : Nat),
    let step := markupTurn ⟨settings, text, script, bound⟩
    Reaches bound step ([], table) lo st i → Valid table (ofTags st) ∧
      ∀ st' j, Reaches bound step st i st' j → Onward (ofTags st) (ofTags st')
  /-- Among the attributes of a tag, whose own site is the first one that is added. -/
  tag : ∀ (flavor : Flavor) (name : List Char) (lt bound : Nat) (table pushed table' : List Site)
    (site : Option Nat) (i j : Nat), pushTag settings table name lt = .ok (site, pushed) →
    Reaches bound (tagTurn text nested flavor site bound) pushed i table' j →
      table <+: table' ∧ ∀ k ∈ site, k = table.length ∧ k < table'.length

/-- The indices are valid in every turn of a scan. -/
theorem indicesValid (settings : ScanSettings) (text : List Char) {nested : Scan}
    {script : Bool → Scan} (hnested : Adds nested) (hscript : ∀ jsx, Adds (script jsx)) :
    IndicesValid settings text nested script where
  code jsx lo bound table st i := by
    intro step hreach
    have hstep : ∀ st k, Gives (step st k) (Turn.Moves ofModes st) := fun st k =>
      scriptTurn_moves hnested st k
    have hvalid := (valid_of_reaches hstep (Valid.start table) hreach).1
    exact ⟨hvalid, fun st' j hreach' => (valid_of_reaches hstep hvalid hreach').2⟩
  markup lo bound table st i := by
    intro step hreach
    have hstep : ∀ st k, Gives (step st k) (Turn.Moves ofTags st) := fun st k =>
      markupTurn_moves hscript st k
    have hvalid := (valid_of_reaches hstep (Valid.start table) hreach).1
    exact ⟨hvalid, fun st' j hreach' => (valid_of_reaches hstep hvalid hreach').2⟩
  tag flavor name lt bound table pushed table' site i j hpush hreach := by
    obtain ⟨hpushed, hsite⟩ := pushTag_gives settings table name lt _ hpush
    have hkept := keptBelow_of_reaches hnested
      (fun k hk => Nat.le_of_eq (hsite k hk).1.symm) hpushed.length_le hreach
    refine ⟨hkept.isPrefix hpushed, fun k hk => ?_⟩
    exact ⟨(hsite k hk).1, Nat.lt_of_lt_of_le (hsite k hk).2 hkept.length_le⟩

/-- **A rejected tag leaves no trace.** The scans by bytes, which share one table of sites, find the
tags and sites that the scans by characters find. Whatever is in the table, and wherever in the text
a tag is looked for, at any depth and in either flavor: when there is none, the table is what it was
before, although sites have been added and changed while its attributes were read. A tag that is
read, and a scan of code or markup that comes to an end, have left alone what was in the table and
only added to it. Hence the indices that a scan holds for its open elements are always those of
different sites of its own, and each has the same entry for as long as it is held. -/
theorem rejected_tag_leaves_no_trace (options : ExtractOptions) (text : List Char) (depth : Nat) :
    let settings : ScanSettings := ⟨options.marker.toList, options.maxSites⟩
    let code := scanScript settings text (options.maxDepth - depth)
    let markup := scanMarkup settings text (options.maxDepth - depth)
    let nested := nestedScan settings text options.maxDepth depth
    let inner := innerScan settings options.maxDepth depth
    let tag := readTag settings text nested
    ((∀ jsx, ComponentAudit.scanScript settings (options.maxDepth - depth) jsx =
          ComponentAudit.scanRegion settings jsx inner ∧
        code jsx = scanRegion settings text jsx nested ∧
        Agrees text (code jsx)
          (ComponentAudit.scanScript settings (options.maxDepth - depth) jsx)) ∧
      (∀ flavor table n e s, Span text n e ('<' :: s) →
        tag flavor table (offset text n) (offset text e) =
          lift ((ComponentAudit.readTag settings flavor inner table.length n s).map
            (tagRead text table))) ∧
      ∀ dialect, scanText options dialect text =
        lift ((ComponentAudit.scanText options dialect text).map (recorded text))) ∧
    (∀ flavor table lt bound table', tag flavor table lt bound = .ok (none, table') →
      table' = table) ∧
    (∀ flavor table lt bound found table',
      tag flavor table lt bound = .ok (some found, table') →
        table <+: table' ∧ ∀ k ∈ found.site, k = table.length ∧ k < table'.length) ∧
    (∀ jsx table lo bound table', code jsx table lo bound = .ok table' → table <+: table') ∧
    (∀ table lo bound table', markup table lo bound = .ok table' → table <+: table') ∧
    IndicesValid settings text nested code := by
  intro settings code markup nested inner tag
  have hnested : Adds nested := nestedScan_adds settings text options.maxDepth depth
  have hcode : ∀ jsx, Adds (code jsx) := scanScript_adds settings text _
  have hmarkup : Adds markup := scanMarkup_adds settings text _
  have htag := readTag_gives hnested settings text
  refine ⟨⟨fun jsx => ⟨?_, ?_, ?_⟩, fun flavor table n e s hspan => ?_, fun dialect => ?_⟩,
    ?_, ?_, ?_, ?_, indicesValid settings text hnested hcode⟩
  · exact scanScript_eq_innerScan settings options.maxDepth depth jsx
  · exact scanScript_eq_nestedScan settings text options.maxDepth depth jsx
  · exact scanScript_agrees settings text _ jsx
  · exact readTag_eq (nestedScan_agrees settings text options.maxDepth depth) settings flavor
      table hspan
  · exact scanText_eq options dialect text
  · exact fun flavor table lt bound _ h => (htag flavor table lt bound _ h).rejected rfl
  · intro flavor table lt bound found _ h
    have hleaves := htag flavor table lt bound _ h
    exact ⟨hleaves.added, hleaves.site found rfl⟩
  · exact fun jsx table lo bound _ h => hcode jsx table lo bound _ h
  · exact fun table lo bound _ h => hmarkup table lo bound _ h

deriving instance DecidableEq for Tag, Turn

/-- The tag comes to no end. By then its site and the one of the call in its attribute are in the
table. The scan of the code finds the call once more. -/
theorem rejected_tag_leaves_no_trace_broken :
    let text := "<va-card a=\x7bh('va-link')\x7d ;".toList
    let settings : ScanSettings := ⟨"va-".toList, 10000⟩
    let nested := nestedScan settings text 8 0
    let alert : Site := ⟨"va-alert", "va-alert", 0, 0, {}, false⟩
    let card : Site := ⟨"va-card", "va-card", 0, 0, {}, false⟩
    let link : Site := ⟨"va-link", "va-link", 12, 24, {}, false⟩
    pushTag settings [alert] "va-card".toList 0 = .ok (some 1, [alert, card]) ∧
      Reaches 27 (tagTurn text nested .jsx (some 1) 27) [alert, card] 8
        [alert, card.applyMeaning (.prop ['a'] .unresolved), link] 25 ∧
      1 < [alert, card.applyMeaning (.prop ['a'] .unresolved), link].length ∧
      (∃ table, readTag settings text nested .jsx [alert] 0 27 = .ok (none, table) ∧
        table = [alert]) ∧
      ∃ table, scanScript settings text 8 true [alert] 0 27 = .ok table ∧
        table = [alert, link] ∧ [alert] <+: table := by
  intro text settings nested alert card link
  obtain ⟨-, hrejected, -, hcode, -, hindices⟩ := rejected_tag_leaves_no_trace {} text 0
  have hpush : pushTag settings [alert] "va-card".toList 0 = .ok (some 1, [alert, card]) := by
    decide +kernel
  have hturn : tagTurn text nested .jsx (some 1) 27 [alert, card] 8 =
      .ok (.next [alert, card.applyMeaning (.prop ['a'] .unresolved), link] 25) := by
    decide +kernel
  have hreach : Reaches 27 (tagTurn text nested .jsx (some 1) 27) [alert, card] 8
      [alert, card.applyMeaning (.prop ['a'] .unresolved), link] 25 :=
    .turn .start (by decide) hturn
  have htag : readTag settings text nested .jsx [alert] 0 27 = .ok (none, [alert]) := by
    decide +kernel
  have hscan : scanScript settings text 8 true [alert] 0 27 = .ok [alert, link] := by
    decide +kernel
  have hsite := (hindices.tag _ _ _ _ _ _ _ _ _ _ hpush hreach).2
  exact ⟨hpush, hreach, (hsite 1 rfl).2, ⟨_, htag, hrejected _ _ _ _ _ htag⟩,
    _, hscan, rfl, hcode _ _ _ _ _ hscan⟩

end ComponentAudit.Offset
