import ComponentAudit.Proofs.Offset.Tag
import ComponentAudit.Site.Script

/-!
# Open elements by byte offsets

By bytes, what a scan is inside of is a stack of modes next to the table of sites: an open element
keeps the index of its site, and closing it sets the end of that entry. By characters, a frame holds
the sites found in it. `Mirrors` relates the two. The sites of all frames, put together, are the
part of the table that the scan has added, and the index of an element is the number of sites in the
table and in the frames below its own.

A closed element finds its entry because closing frames changes the ends of sites and nothing else
(`endAll_eq`); this is what keeps every index within the table.
-/

namespace ComponentAudit.Offset

variable {text : List Char}

/-! ### Modes -/

/-- What a scan by offsets is inside of. -/
inductive Mode where
  /-- Code with so many open braces. -/
  | code (braces : Nat)
  /-- The children of an element, whose site has the given index. -/
  | children (tag : List Char) (site : Option Nat)

/-- Sets the end of the site of a mode. -/
def endMode (stop : Nat) : Mode → List Site → Checked (List Site)
  | .children _ (some i), table => updateAt table i (·.endingAt stop)
  | _, table => return table

/-- Sets the ends of the sites of modes, which are given innermost first, from the outside in. -/
def endAll (stop : Nat) : List Mode → List Site → Checked (List Site)
  | [], table => return table
  | m :: modes, table => do endMode stop m (← endAll stop modes table)

/-- The modes that a closing tag of the given name closes, if there is an element of that name
before the nearest code, and those that stay. -/
def closing? (name : List Char) : List Mode → Option (List Mode × List Mode)
  | .children tag site :: modes =>
    if tag = name then some ([.children tag site], modes)
    else (closing? name modes).map fun (closed, rest) => (.children tag site :: closed, rest)
  | _ => none

/-- An opening brace in code. -/
def pushBrace : List Mode → List Mode
  | .code braces :: modes => .code (braces + 1) :: modes
  | modes => modes

/-- A closing brace in code. -/
def popBrace : List Mode → List Mode
  | .code (braces + 1) :: modes => .code braces :: modes
  | .code 0 :: m :: modes => m :: modes
  | modes => modes

/-! ### Modes of frames -/

/-- The sites of a frame, latest first, the one of its element last. -/
def frameSites : Frame → List Site
  | .code _ found => found
  | .children _ site found => found ++ site.toList

/-- The sites of all frames, latest first. -/
def sitesOf (frames : List Frame) : List Site := frames.flatMap frameSites

@[simp] theorem sitesOf_cons (f : Frame) (frames : List Frame) :
    sitesOf (f :: frames) = frameSites f ++ sitesOf frames := rfl

@[simp] theorem sitesOf_append (a b : List Frame) : sitesOf (a ++ b) = sitesOf a ++ sitesOf b :=
  List.flatMap_append

/-- The mode of a frame whose element has its site at the given index. -/
def modeOf (index : Nat) : Frame → Mode
  | .code braces _ => .code braces
  | .children tag site _ => .children tag (site.map fun _ => index)

/-- The modes of frames, when so many sites are in the table before theirs. -/
def modesOf (count : Nat) : List Frame → List Mode
  | [] => []
  | f :: frames => modeOf (count + (sitesOf frames).length) f :: modesOf count frames

/-- The outermost frame is code. -/
def Rooted : List Frame → Prop
  | [] => False
  | [f] => ∃ braces found, f = .code braces found
  | _ :: f :: frames => Rooted (f :: frames)

theorem Rooted.of_cons {tag : List Char} {site : Option Site} {found : List Site}
    {frames : List Frame} (h : Rooted (.children tag site found :: frames)) : Rooted frames := by
  cases frames with
  | nil =>
    obtain ⟨_, _, h⟩ := h
    cases h
  | cons f frames => exact h

theorem Rooted.cons {f : Frame} {frames : List Frame} (h : Rooted frames) :
    Rooted (f :: frames) := by
  cases frames with
  | nil => exact h.elim
  | cons g frames => exact h

theorem Rooted.recordSites {frames : List Frame} (h : Rooted frames) (sites : List Site) :
    Rooted (recordSites sites frames) := by
  cases frames with
  | nil => exact h.elim
  | cons f frames =>
    cases frames with
    | nil =>
      obtain ⟨braces, found, rfl⟩ := h
      exact ⟨braces, sites ++ found, rfl⟩
    | cons g frames => exact h

/-- New sites come in front of those in the frames. -/
theorem sitesOf_recordSites {frames : List Frame} (h : Rooted frames) (sites : List Site) :
    sitesOf (recordSites sites frames) = sites ++ sitesOf frames := by
  cases frames with
  | nil => exact h.elim
  | cons f frames => cases f <;> simp [recordSites, Frame.record, frameSites]

/-- Sites go into a frame without a change to the modes. -/
theorem modesOf_recordSites {frames : List Frame} (h : Rooted frames) (count : Nat)
    (sites : List Site) : modesOf count (recordSites sites frames) = modesOf count frames := by
  cases frames with
  | nil => exact h.elim
  | cons f frames => cases f <;> rfl

private theorem length_close (stop : Nat) (f : Frame) :
    (f.close stop).length = (frameSites f).length := by
  rcases f with ⟨braces, found⟩ | ⟨tag, site, found⟩
  · rfl
  · cases site <;> simp [Frame.close, frameSites]

/-- When everything closes, no site is lost. -/
theorem length_closeAll (stop : Nat) (frames : List Frame) :
    (closeAll stop frames).length = (sitesOf frames).length := by
  induction frames with
  | nil => rfl
  | cons f frames ih =>
    rw [closeAll, List.flatMap_cons, List.length_append, length_close, sitesOf_cons,
      List.length_append, ← ih]
    rfl

/-- The end of a site is converted with the others of its places. -/
theorem inBytes_endingAt (stop : Nat) (s : Site) :
    inBytes text (s.endingAt stop) = (inBytes text s).endingAt (offset text stop) := rfl

/-- Closing frames ends the entries of their sites, whatever comes after these in the table. -/
theorem endAll_eq (stop : Nat) (frames : List Frame) (base after : List Site) :
    endAll (offset text stop) (modesOf base.length frames)
        (base ++ recorded text (sitesOf frames) ++ after) =
      .ok (base ++ recorded text (closeAll stop frames) ++ after) := by
  induction frames generalizing after with
  | nil => rfl
  | cons f frames ih =>
    have hinner := ih (recorded text (frameSites f) ++ after)
    rw [← List.append_assoc, List.append_assoc base, ← recorded_append, ← sitesOf_cons] at hinner
    rw [modesOf, endAll, hinner, ok_bind]
    rcases f with ⟨braces, found⟩ | ⟨tag, site, found⟩
    · simp [modeOf, endMode, frameSites, closeAll, Frame.close]
    · cases site with
      | none => simp [modeOf, endMode, frameSites, closeAll, Frame.close]
      | some s =>
        have hindex : base.length + (sitesOf frames).length =
            (base ++ recorded text (closeAll stop frames)).length := by
          simp [length_closeAll]
        have hset := updateAt_append (base ++ recorded text (closeAll stop frames))
          (recorded text found ++ after) (inBytes text s) (·.endingAt (offset text stop))
        rw [← hindex] at hset
        simpa [modeOf, endMode, frameSites, closeAll, Frame.close, inBytes_endingAt] using hset

/-! ### States -/

/-- What a scan of code has found and is inside of, by bytes and by characters. -/
structure Mirrors (text : List Char) (base : List Site) (modes : List Mode) (table : List Site)
    (st : ScriptState) : Prop where
  modes_eq : modes = modesOf base.length st.frames
  table_eq : table = base ++ recorded text (sitesOf st.frames)
  count_eq : st.count = table.length
  rooted : Rooted st.frames

variable {base table : List Site} {modes : List Mode} {frames : List Frame} {count : Nat}

/-- Sites that are added to the table are recorded in the innermost frame. -/
theorem Mirrors.record (h : Mirrors text base modes table ⟨frames, count⟩) (sites : List Site) :
    Mirrors text base modes (table ++ recorded text sites)
      ⟨recordSites sites frames, count + sites.length⟩ := by
  obtain ⟨rfl, rfl, hcount, hroot⟩ := h
  refine ⟨?_, ?_, ?_, hroot.recordSites sites⟩
  · rw [modesOf_recordSites hroot]
  · rw [sitesOf_recordSites hroot, recorded_append, List.append_assoc]
  · rw [List.length_append, length_recorded, ← hcount]

/-- Opening an element. -/
theorem Mirrors.openElement (h : Mirrors text base modes table ⟨frames, count⟩) (tag : List Char)
    (site : Option Site) (inner : List Site) (stop : Nat) :
    Mirrors text base (.children tag (site.map fun _ => table.length) :: modes)
      (tagTable text table site inner)
      ⟨.children tag site inner :: frames,
        count + (inner ++ (site.map (·.endingAt stop)).toList).length⟩ := by
  obtain ⟨rfl, rfl, hcount, hroot⟩ := h
  refine ⟨?_, ?_, ?_, hroot.cons⟩
  · simp [modesOf, modeOf]
  · simp [tagTable, frameSites]
  · cases site <;> simp_all [tagTable] <;> omega

/-- An expression among the children of an element. -/
theorem Mirrors.enter (h : Mirrors text base modes table ⟨frames, count⟩) :
    Mirrors text base (.code 0 :: modes) table ⟨.code 0 [] :: frames, count⟩ := by
  obtain ⟨rfl, rfl, hcount, hroot⟩ := h
  exact ⟨rfl, rfl, hcount, hroot.cons⟩

/-- An opening brace on both sides. -/
theorem Mirrors.openBrace (h : Mirrors text base modes table ⟨frames, count⟩) :
    Mirrors text base (pushBrace modes) table ⟨openBrace frames, count⟩ := by
  obtain ⟨rfl, rfl, hcount, hroot⟩ := h
  cases frames with
  | nil => exact hroot.elim
  | cons f frames =>
    cases f with
    | children => exact ⟨rfl, rfl, hcount, hroot⟩
    | code braces found =>
      refine ⟨rfl, rfl, hcount, ?_⟩
      cases frames with
      | nil => exact ⟨_, _, rfl⟩
      | cons g frames => exact hroot

/-- A closing brace on both sides. -/
theorem Mirrors.closeBrace (h : Mirrors text base modes table ⟨frames, count⟩) :
    Mirrors text base (popBrace modes) table ⟨closeBrace frames, count⟩ := by
  obtain ⟨rfl, rfl, hcount, hroot⟩ := h
  cases frames with
  | nil => exact hroot.elim
  | cons f frames =>
    cases f with
    | children => exact ⟨rfl, rfl, hcount, hroot⟩
    | code braces found =>
      cases braces with
      | succ braces =>
        refine ⟨rfl, rfl, hcount, ?_⟩
        cases frames with
        | nil => exact ⟨_, _, rfl⟩
        | cons g frames => exact hroot
      | zero =>
        cases frames with
        | nil => exact ⟨rfl, rfl, hcount, hroot⟩
        | cons g frames =>
          have hroot' : Rooted (g :: frames) := hroot
          refine ⟨?_, ?_, hcount, hroot'.recordSites found⟩
          · exact (modesOf_recordSites hroot' _ found).symm
          · exact congrArg (base ++ recorded text ·) (sitesOf_recordSites hroot' found).symm

/-- The frames that a closing tag closes are those whose modes it closes. -/
theorem closing?_modesOf (name : List Char) (stop count : Nat) (frames : List Frame) :
    match closeElements? name stop frames with
    | none => closing? name (modesOf count frames) = none
    | some (sites, rest) => ∃ closed, frames = closed ++ rest ∧ sites = closeAll stop closed ∧
        (Rooted frames → Rooted rest) ∧ closing? name (modesOf count frames) =
          some (modesOf (count + (sitesOf rest).length) closed, modesOf count rest) := by
  induction frames with
  | nil => rfl
  | cons f frames ih =>
    cases f with
    | code => rfl
    | children tag site found =>
      rw [closeElements?, modesOf, modeOf, closing?]
      by_cases htag : tag = name
      · rw [if_pos htag, if_pos htag]
        exact ⟨[.children tag site found], rfl, by simp [closeAll], Rooted.of_cons, rfl⟩
      · rw [if_neg htag, if_neg htag]
        cases hclose : closeElements? name stop frames with
        | none =>
          rw [hclose] at ih
          rw [show _ = _ from ih]
          rfl
        | some closed =>
          obtain ⟨sites, rest⟩ := closed
          rw [hclose] at ih
          obtain ⟨closed, rfl, rfl, hroot, hmodes⟩ := ih
          refine ⟨.children tag site found :: closed, rfl, rfl, fun h => hroot h.of_cons, ?_⟩
          rw [hmodes]
          simp [modesOf, modeOf, Nat.add_assoc, Nat.add_comm (sitesOf rest).length]

/-- Closing elements. -/
theorem Mirrors.close (h : Mirrors text base modes table ⟨frames, count⟩) (name : List Char)
    (stop : Nat) :
    match closeElements? name stop frames with
    | none => closing? name modes = none
    | some (sites, rest) => ∃ closed modes' table', closing? name modes = some (closed, modes') ∧
        endAll (offset text stop) closed table = .ok table' ∧
        Mirrors text base modes' table' ⟨recordSites sites rest, count⟩ := by
  obtain ⟨rfl, rfl, hcount, hroot⟩ := h
  have hclosing := closing?_modesOf name stop base.length frames
  dsimp only at hroot hcount ⊢
  cases hclose : closeElements? name stop frames with
  | none =>
    rw [hclose] at hclosing
    exact hclosing
  | some closed =>
    obtain ⟨sites, rest⟩ := closed
    rw [hclose] at hclosing
    obtain ⟨closed, rfl, rfl, hrest, hmodes⟩ := hclosing
    have hend := @endAll_eq text stop closed (base ++ recorded text (sitesOf rest)) []
    have hroot' := hrest hroot
    refine ⟨_, _, base ++ recorded text (sitesOf rest) ++ recorded text (closeAll stop closed),
      hmodes, ?_, ?_, ?_, ?_, ?_⟩
    · simpa using hend
    · rw [modesOf_recordSites hroot']
    · simp [sitesOf_recordSites hroot']
    · simpa [length_closeAll, Nat.add_comm] using hcount
    · exact hroot'.recordSites _

end ComponentAudit.Offset
