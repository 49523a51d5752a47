import ComponentAudit.Proofs.Location
import ComponentAudit.Proofs.Offset.Markup

/-!
# Extraction by byte offsets

What is made of the table of sites by bytes. Lines are looked up in a list of the offsets at which
they start, and columns count the characters from there on; the places of sites keep their order
when they become offsets, so the sites have the same parents.

`locate_eq` compares the positions, and `extract_eq` the usages of whole files: by bytes the program
comes to the same answers, so none of its accesses fails but the one that takes the quotes off a
literal.
-/

namespace ComponentAudit.Offset

variable {text s : List Char} {n e : Nat} {c : Char}

/-! ### Lines -/

/-- The offsets after the line feeds among bytes, the first of which has the given offset. -/
def lineBreaks (us : List Char) (i : Nat) : List Nat :=
  ((us.zipIdx i).filter fun (u, _) => u = '\n').map fun (_, k) => k + 1

/-- The offsets at which the lines of a text start. -/
def lineStarts (text : List Char) : List Nat := 0 :: lineBreaks (bytes text) 0

/-- Where an ascending list has `x`, or would have it. -/
def searchSorted (l : List Nat) (x : Nat) : Except Nat Nat :=
  let k := l.countP (· < x)
  if l[k]? = some x then .ok k else .error k

/-- The number of the line of an offset. -/
def lineOf (starts : List Nat) (i : Nat) : Checked Nat :=
  match searchSorted starts i with
  | .ok k => return k
  | .error 0 => .error .outOfRange
  | .error (k + 1) => return k

/-- The position of an offset. -/
def locate (text : List Char) (starts : List Nat) (i : Nat) : Checked Position := do
  let line ← lineOf starts i
  match starts[line]? with
  | none => .error .outOfRange
  | some start => return ⟨line + 1, (← slice text start i).length + 1⟩

private theorem lineBreaks_append (us vs : List Char) (i : Nat) :
    lineBreaks (us ++ vs) i = lineBreaks us i ++ lineBreaks vs (i + us.length) := by
  simp [lineBreaks, List.zipIdx_append]

private theorem lt_of_mem_lineBreaks {us : List Char} {i k : Nat} (h : k ∈ lineBreaks us i) :
    i < k ∧ k ≤ i + us.length := by
  simp only [lineBreaks, List.mem_map, List.mem_filter] at h
  obtain ⟨⟨u, j⟩, ⟨hmem, -⟩, rfl⟩ := h
  have hge := List.le_snd_of_mem_zipIdx hmem
  have hlt := List.snd_lt_of_mem_zipIdx hmem
  dsimp only at hge hlt ⊢
  omega

private theorem lineBreaks_of_not_mem {us : List Char} (h : '\n' ∉ us) (i : Nat) :
    lineBreaks us i = [] := by
  rw [lineBreaks, List.map_eq_nil_iff, List.filter_eq_nil_iff]
  rintro ⟨u, k⟩ hmem hu
  have hfst := List.fst_mem_of_mem_zipIdx hmem
  rw [of_decide_eq_true hu] at hfst
  exact h hfst

private theorem length_lineBreaks (us : List Char) (i : Nat) :
    (lineBreaks us i).length = us.count '\n' := by
  induction us generalizing i with
  | nil => rfl
  | cons u us ih =>
    rw [← List.singleton_append, lineBreaks_append, List.length_append, ih, List.count_append]
    by_cases hu : u = '\n' <;> simp [lineBreaks, hu]

private theorem count_bytes {x : Char} (hx : x.toNat < 128) (s : List Char) :
    (bytes s).count x = s.count x := by
  induction s with
  | nil => rfl
  | cons c s ih =>
    rw [bytes_cons, List.count_append, ih]
    by_cases hc : c.toNat < 128
    · rw [units_of_lt hc, ← List.count_append, List.singleton_append]
    · have hle : 128 ≤ c.toNat := Nat.le_of_not_lt hc
      have hunits : (units c).count x = 0 :=
        List.count_eq_zero.2 fun hmem => Nat.not_le_of_lt hx (le_of_mem_units hle hmem)
      rw [hunits, List.count_cons_of_ne (ne_of_le hx hle), Nat.zero_add]

private theorem mem_bytes_iff {x : Char} (hx : x.toNat < 128) : x ∈ bytes s ↔ x ∈ s := by
  rw [← List.count_pos_iff, count_bytes hx, List.count_pos_iff]

/-- Whole lines end where the next one starts. -/
theorem lineStarts_append {above left rest : List Char}
    (hend : above = [] ∨ above.getLast? = some '\n') (hleft : '\n' ∉ left) :
    ∃ earlier later, lineStarts (above ++ left ++ rest) =
        earlier ++ Text.byteSize above :: later ∧
      earlier.length = above.count '\n' ∧ (∀ k ∈ earlier, k < Text.byteSize above) ∧
      ∀ k ∈ later, Text.byteSize (above ++ left) < k := by
  have hbreaks : lineBreaks (bytes (above ++ left ++ rest)) 0 = lineBreaks (bytes above) 0 ++
      lineBreaks (bytes rest) (Text.byteSize (above ++ left)) := by
    have hnone : '\n' ∉ bytes left := fun hmem => hleft ((mem_bytes_iff (by decide)).1 hmem)
    rw [bytes_append, lineBreaks_append, bytes_append, lineBreaks_append,
      lineBreaks_of_not_mem hnone, List.append_nil, ← bytes_append, length_bytes, Nat.zero_add]
  have hlater : ∀ k ∈ lineBreaks (bytes rest) (Text.byteSize (above ++ left)),
      Text.byteSize (above ++ left) < k := fun k hk => (lt_of_mem_lineBreaks hk).1
  rw [lineStarts, hbreaks]
  -- The first line starts at 0 with no line break in front of it; every other starts behind one.
  rcases hend with rfl | hlast
  · exact ⟨[], _, rfl, rfl, fun k hk => absurd hk List.not_mem_nil, hlater⟩
  · obtain ⟨above, rfl⟩ := List.getLast?_eq_some_iff.1 hlast
    have hlast : lineBreaks (bytes (above ++ ['\n'])) 0 =
        lineBreaks (bytes above) 0 ++ [Text.byteSize (above ++ ['\n'])] := by
      rw [bytes_append, lineBreaks_append, length_bytes, byteSize_append, Nat.zero_add]
      rfl
    refine ⟨0 :: lineBreaks (bytes above) 0, _, by rw [hlast]; simp, ?_, ?_, hlater⟩
    · rw [List.length_cons, length_lineBreaks, count_bytes (by decide), List.count_append]
      rfl
    · intro k hk
      have hsize : Text.byteSize (above ++ ['\n']) = Text.byteSize above + 1 := by
        rw [byteSize_append]
        rfl
      rcases List.mem_cons.1 hk with rfl | hk
      · omega
      · have := (lt_of_mem_lineBreaks hk).2
        rw [length_bytes] at this
        omega

/-- The line of an offset is the last one that does not start after it. -/
theorem lineOf_append {earlier later : List Nat} {x i : Nat} (hearlier : ∀ k ∈ earlier, k < x)
    (hx : x ≤ i) (hlater : ∀ k ∈ later, i < k) :
    lineOf (earlier ++ x :: later) i = .ok earlier.length := by
  have hcount : (earlier ++ x :: later).countP (· < i) =
      earlier.length + if x < i then 1 else 0 := by
    have hall : earlier.countP (· < i) = earlier.length :=
      List.countP_eq_length.2 fun k hk => decide_eq_true (Nat.lt_of_lt_of_le (hearlier k hk) hx)
    have hnone : later.countP (· < i) = 0 :=
      List.countP_eq_zero.2 fun k hk => by simpa using Nat.le_of_lt (hlater k hk)
    rw [List.countP_append, List.countP_cons, hall, hnone]
    simp
  rw [lineOf, searchSorted, hcount]
  rcases Nat.lt_or_eq_of_le hx with hlt | rfl
  · have hnext : (earlier ++ x :: later)[earlier.length + 1]? ≠ some i := by
      rw [List.getElem?_append_right (Nat.le_add_right _ 1), Nat.add_sub_cancel_left,
        List.getElem?_cons_succ]
      intro hhead
      exact Nat.lt_irrefl i (hlater i (List.mem_of_getElem? hhead))
    simp only [if_pos hlt, if_neg hnext]
    rfl
  · simp

/-- By bytes and by characters a place has the same position. -/
theorem locate_eq (h : n ≤ text.length) :
    locate text (lineStarts text) (offset text n) = .ok (positionAt text n) := by
  obtain ⟨above, left, htake, hend, hleft, hposition⟩ := exists_positionAt_eq h
  obtain ⟨earlier, later, hstarts, hlength, hearlier, hlater⟩ :=
    @lineStarts_append above left (text.drop n) hend hleft
  have htext : above ++ left ++ text.drop n = text := by rw [← htake, List.take_append_drop]
  have hspan := (Span.whole text).take h
  rw [htake, Nat.zero_add] at hspan
  have hstop := hspan.offset_stop
  have habove := hspan.split.1.offset_stop
  rw [offset_zero, Nat.zero_add] at hstop habove
  have hslice := hspan.split.2.slice_eq
  rw [htext] at hstarts
  rw [Nat.zero_add] at habove hslice
  rw [locate, hstarts, ← habove, lineOf_append (habove ▸ hearlier) ?_ (hstop ▸ hlater), ok_bind,
    List.getElem?_append_right (Nat.le_refl _), Nat.sub_self, List.getElem?_cons_zero, hposition]
  · dsimp only
    rw [hslice, ok_bind, hlength]
    rfl
  · rw [habove, hstop, byteSize_append]
    exact Nat.le_add_right _ _

/-! ### Parents -/

/-- Offsets are in the order of their places, so the same sites enclose each other. -/
theorem parentWalk_map_inBytes (sites : List Site) :
    ∀ (enclosing : List (Nat × Nat)) (n : Nat),
      parentWalk (enclosing.map fun x => (offset text x.1, x.2)) n (sites.map (inBytes text)) =
        parentWalk enclosing n sites := by
  induction sites with
  | nil => intro _ _; rfl
  | cons s sites ih =>
    intro enclosing n
    have hdrop : (enclosing.map fun x => (offset text x.1, x.2)).dropWhile
        (fun x => x.1 ≤ (inBytes text s).start) =
          (enclosing.dropWhile fun x => x.1 ≤ s.start).map fun x => (offset text x.1, x.2) := by
      rw [List.dropWhile_map]
      simp [Function.comp_def, inBytes]
    rw [List.map_cons, parentWalk, parentWalk, hdrop]
    generalize enclosing.dropWhile (fun x => x.1 ≤ s.start) = enclosing
    have hopen : (if (inBytes text s).start < (inBytes text s).stop then
        ((inBytes text s).stop, n) :: enclosing.map fun x => (offset text x.1, x.2)
        else enclosing.map fun x => (offset text x.1, x.2)) =
          (if s.start < s.stop then (s.stop, n) :: enclosing else enclosing).map
            fun x => (offset text x.1, x.2) := by
      simp only [inBytes, offset_lt_iff]
      split <;> rfl
    rw [hopen, ih]
    cases enclosing <;> rfl

/-! ### Usages -/

/-- The usages at sites that follow in order, the first of which has the index `n`. `enclosing`
holds the ends and indices of the sites still open, innermost first. -/
def usageWalk (text : List Char) (path : String) (starts : List Nat) (enclosing : List (Nat × Nat))
    (n : Nat) : List Site → Checked (List Usage)
  | [] => return []
  | s :: rest => do
    let enclosing := enclosing.dropWhile fun x => x.1 ≤ s.start
    let position ← locate text starts s.start
    let usage := s.toUsage path position (enclosing.head?.map Prod.snd)
    let enclosing := if s.start < s.stop then (s.stop, n) :: enclosing else enclosing
    return usage :: (← usageWalk text path starts enclosing (n + 1) rest)

/-- The positions and parents of the usages, computed from offsets, are those computed from places.
-/
theorem usageWalk_eq (path : String) (sites : List Site)
    (hsites : ∀ s ∈ sites, s.start ≤ text.length) :
    ∀ (enclosing : List (Nat × Nat)) (n : Nat),
      usageWalk text path (lineStarts text) enclosing n (sites.map (inBytes text)) =
        .ok (List.zipWith (fun s parent => s.toUsage path (positionAt text s.start) parent) sites
          (parentWalk enclosing n (sites.map (inBytes text)))) := by
  induction sites with
  | nil => intro _ _; rfl
  | cons s sites ih =>
    intro enclosing n
    obtain ⟨hs, hsites⟩ := List.forall_mem_cons.1 hsites
    have hlocate : locate text (lineStarts text) (inBytes text s).start =
        .ok (positionAt text s.start) := locate_eq hs
    rw [List.map_cons, usageWalk, hlocate, ok_bind]
    dsimp only
    rw [ih hsites, parentWalk]
    rfl

/-! ### Whole files -/

/-- Scans a text for sites. -/
def scanText (options : ExtractOptions) (dialect : Dialect) (text : List Char) :
    Checked (List Site) :=
  let settings := ⟨options.marker.toList, options.maxSites⟩
  match dialect with
  | .script jsx => scanScript settings text options.maxDepth jsx [] 0 (Text.byteSize text)
  | .template => scanMarkup settings text options.maxDepth [] 0 (Text.byteSize text)

/-- The sites of a text in the order of their places. -/
def findSites (options : ExtractOptions) (dialect : Dialect) (text : List Char) :
    Checked (List Site) :=
  if options.maxBytes < Text.byteSize text then
    .error (.limit (.tooLarge (Text.byteSize text) options.maxBytes))
  else if (bytes text).contains '\x00' then .error (.limit .binary)
  else if !mentionsMarker options.marker.toList text then return []
  else do
    let table ← scanText options dialect text
    return table.mergeSort fun a b => a.start ≤ b.start

/-- The usages of components in a file, in the order of their places. -/
def extract (options : ExtractOptions) (path text : String) : Checked (List Usage) := do
  let sites ← findSites options (Dialect.ofPath ⟨path⟩) text.toList
  usageWalk text.toList path (lineStarts text.toList) [] 0 sites

/-- **The scan of a text.** On bytes it has the sites that it has on characters, at the
corresponding offsets, or the same failure. -/
theorem scanText_eq (options : ExtractOptions) (dialect : Dialect) (text : List Char) :
    scanText options dialect text =
      lift ((ComponentAudit.scanText options dialect text).map (recorded text)) := by
  cases dialect with
  | template => exact scanMarkup_eq _ _ _
  | script jsx =>
    have hscan := scanScript_agrees ⟨options.marker.toList, options.maxSites⟩ text options.maxDepth
      jsx [] 0 text.length none text (Span.whole text) rfl
    rw [offset_zero, offset_length] at hscan
    exact hscan

/-- The checks before and the order after the scan are the same on both sides. -/
theorem findSites_eq (options : ExtractOptions) (dialect : Dialect) (text : List Char) :
    findSites options dialect text =
      lift ((ComponentAudit.findSites options dialect text).map
        fun sites => sites.map (inBytes text)) := by
  have hnul : (bytes text).contains '\x00' = text.contains '\x00' := by
    rw [Bool.eq_iff_iff, List.contains_iff_mem, List.contains_iff_mem, mem_bytes_iff (by decide)]
  rw [findSites, ComponentAudit.findSites, hnul]
  split
  · rfl
  split
  · rfl
  split
  · rfl
  rw [scanText_eq]
  cases ComponentAudit.scanText options dialect text with
  | error err => rfl
  | ok found =>
    have hsort : (recorded text found).mergeSort (fun a b => a.start ≤ b.start) =
        (found.reverse.mergeSort fun a b => a.start ≤ b.start).map (inBytes text) := by
      rw [recorded, ← List.map_reverse]
      refine (List.map_mergeSort fun a _ b _ => ?_).symm
      simp [inBytes]
    exact congrArg Except.ok hsort

/-- **By bytes the extraction comes to the same answers.** -/
theorem extract_eq (options : ExtractOptions) (path text : String) :
    extract options path text = lift (ComponentAudit.extract options path text) := by
  rw [extract, findSites_eq, ComponentAudit.extract]
  cases hfind : ComponentAudit.findSites options (Dialect.ofPath ⟨path⟩) text.toList with
  | error err => rfl
  | ok sites =>
    have hbounds : ∀ s ∈ sites, s.start ≤ text.toList.length := by
      intro s hs
      have htraced := (findSites_traced hfind).bounds s.invocation
        (List.mem_map_of_mem (List.mem_reverse.2 hs))
      exact Nat.le_of_lt htraced.2
    have horder := (findSites_pairwise_lt hfind).imp fun h => Nat.le_of_lt h
    have hparents := @parentWalk_map_inBytes text.toList sites [] 0
    simp only [Except.map, lift_ok, ok_bind]
    rw [usageWalk_eq path sites hbounds, usagesOf_eq_zipWith (List.pairwise_map.2 horder), parents,
      ← hparents]
    rfl

end ComponentAudit.Offset
