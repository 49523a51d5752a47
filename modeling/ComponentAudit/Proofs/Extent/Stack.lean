import ComponentAudit.Proofs.Offset.Markup

/-!
# Extents of tags on the stack of a scan

The extent of a site goes from its start to its end. Two extents of start tags are nested when one
is over before the other begins, or contains it. Calls are not part of this: the arguments of a call
may end anywhere in its region.

`Nested text limit lo hi sites` says of sites, latest first, that the extents of the tags among them
nest, and that they lie in the stretch from `lo` to `hi`. What was found further on goes in front,
and nests with what is over before its stretch begins, or ends where the stretch ends or later
(`Nested.append`).

An open element has no end yet, and what is found inside comes before its end is known. So the
frames of a scan are related to stretches instead: each frame has its own stretch, which begins
where those of the frames below end (`Stacked`). Closing some frames at a place beyond them all
gives their elements the same end, which contains whatever was found inside (`Stacked.nested`), and
that is how ends are set in bulk, at a closing tag as at the end of a region (`Stacked.close`).
-/

namespace ComponentAudit

/-- The site was recorded for a start tag. -/
def Site.IsTag (text : List Char) (s : Site) : Prop := text[s.start]? = some '<'

/-- Sites, latest first, that start from `lo` on and end by `limit`; the extents of the tags among
them end by `hi`, and nest. -/
structure Nested (text : List Char) (limit lo hi : Nat) (sites : List Site) : Prop where
  bounds : ∀ s ∈ sites, lo ≤ s.start ∧ s.start ≤ s.stop ∧ s.stop ≤ limit
  inside : ∀ s ∈ sites, s.IsTag text → s.stop ≤ hi
  nests : sites.Pairwise fun t s =>
    s.IsTag text → t.IsTag text → s.stop ≤ t.start ∨ t.stop ≤ s.stop

section Nested

variable {text : List Char} {limit lo mid hi : Nat} {new old sites : List Site}

theorem Nested.nil : Nested text limit lo hi [] :=
  ⟨fun _ h => absurd h List.not_mem_nil, fun _ h => absurd h List.not_mem_nil, .nil⟩

theorem Nested.singleton {s : Site} (hbounds : lo ≤ s.start ∧ s.start ≤ s.stop ∧ s.stop ≤ limit)
    (hinside : s.IsTag text → s.stop ≤ hi) : Nested text limit lo hi [s] := by
  refine ⟨fun t ht => ?_, fun t ht => ?_, List.pairwise_singleton _ _⟩
  · rwa [List.mem_singleton.1 ht]
  · rwa [List.mem_singleton.1 ht]

/-- A stretch may be taken wider than it is. -/
theorem Nested.mono {limit' lo' hi' : Nat} (h : Nested text limit lo hi sites)
    (hlimit : limit ≤ limit') (hlo : lo' ≤ lo) (hhi : hi ≤ hi') :
    Nested text limit' lo' hi' sites := by
  refine ⟨fun s hs => ?_, fun s hs htag => Nat.le_trans (h.inside s hs htag) hhi, h.nests⟩
  obtain ⟨hstart, hle, hstop⟩ := h.bounds s hs
  exact ⟨Nat.le_trans hlo hstart, hle, Nat.le_trans hstop hlimit⟩

theorem Nested.widen {hi' : Nat} (h : Nested text limit lo hi sites) (hhi : hi ≤ hi') :
    Nested text limit lo hi' sites :=
  h.mono (Nat.le_refl _) (Nat.le_refl _) hhi

/-- What was found further on goes in front of extents that are over before its stretch begins, or
do not end before its stretch does. -/
theorem Nested.append (hnew : Nested text limit mid hi new) (hold : Nested text limit lo hi old)
    (hlo : lo ≤ mid) (hends : ∀ s ∈ old, s.IsTag text → s.stop ≤ mid ∨ hi ≤ s.stop) :
    Nested text limit lo hi (new ++ old) := by
  refine ⟨fun s hs => ?_, fun s hs => ?_, List.pairwise_append.2 ⟨hnew.nests, hold.nests, ?_⟩⟩
  · rcases List.mem_append.1 hs with h | h
    · exact ⟨Nat.le_trans hlo (hnew.bounds s h).1, (hnew.bounds s h).2⟩
    · exact hold.bounds s h
  · rcases List.mem_append.1 hs with h | h
    · exact hnew.inside s h
    · exact hold.inside s h
  · intro t ht s hs hstag httag
    rcases hends s hs hstag with hover | hcontains
    · exact .inl (Nat.le_trans hover (hnew.bounds t ht).1)
    · exact .inr (Nat.le_trans (hnew.inside t ht httag) hcontains)

/-- Extents of one stretch go in front of those of the stretch before it. -/
theorem Nested.append_of_over (hnew : Nested text limit mid hi new)
    (hold : Nested text limit lo mid old) (hlo : lo ≤ mid) (hhi : mid ≤ hi) :
    Nested text limit lo hi (new ++ old) :=
  hnew.append (hold.widen hhi) hlo
    fun s hs htag => .inl (hold.inside s hs htag)

end Nested

/-! ### Frames -/

/-- The sites of the frame nest in the stretch, and its element, which is still open, begins in
it. -/
def Frame.Nests (text : List Char) (limit lo hi : Nat) : Frame → Prop
  | .code _ found => Nested text limit lo hi found
  | .children _ site found =>
    Nested text limit lo hi found ∧ ∀ s ∈ site, lo ≤ s.start ∧ s.start ≤ hi

/-- The frames, innermost first, have their sites in stretches that follow each other from `lo` to
`hi`. -/
inductive Stacked (text : List Char) (limit lo : Nat) : Nat → List Frame → Prop
  | nil {hi : Nat} (hle : lo ≤ hi) : Stacked text limit lo hi []
  | cons {mid hi : Nat} {f : Frame} {frames : List Frame} (h : Stacked text limit lo mid frames)
      (hle : mid ≤ hi) (hf : f.Nests text limit mid hi) : Stacked text limit lo hi (f :: frames)

section Frames

variable {text : List Char} {limit lo mid hi stop : Nat} {f : Frame} {frames : List Frame}
  {sites : List Site}

theorem Frame.Nests.mono (h : f.Nests text limit lo hi) {hi' : Nat} (hhi : hi ≤ hi') :
    f.Nests text limit lo hi' := by
  cases f with
  | code => exact h.widen hhi
  | children =>
    exact ⟨h.1.widen hhi, fun s hs =>
      ⟨(h.2 s hs).1, Nat.le_trans (h.2 s hs).2 hhi⟩⟩

/-- A frame takes in sites that come after what it has. -/
theorem Frame.Nests.record (h : f.Nests text limit lo mid) (hlo : lo ≤ mid) (hhi : mid ≤ hi)
    (hsites : Nested text limit mid hi sites) : (f.record sites).Nests text limit lo hi := by
  cases f with
  | code => exact hsites.append_of_over h hlo hhi
  | children =>
    exact ⟨hsites.append_of_over h.1 hlo hhi, fun s hs =>
      ⟨(h.2 s hs).1, Nat.le_trans (h.2 s hs).2 hhi⟩⟩

/-- When a frame closes, its element contains what was found inside. What was over before stays as
it is. -/
theorem Frame.Nests.close (h : f.Nests text limit lo hi) (hstop : hi ≤ stop)
    (hlimit : stop ≤ limit) :
    Nested text limit lo stop (f.close stop) ∧
      ∀ s ∈ f.close stop, s.IsTag text → s.stop ≤ hi ∨ stop ≤ s.stop := by
  cases f with
  | code =>
    exact ⟨h.widen hstop, fun s hs htag => .inl (h.inside s hs htag)⟩
  | children tag site found =>
    obtain ⟨hfound, hsite⟩ := h
    cases site with
    | none =>
      simp only [Frame.close, Option.map_none, Option.toList_none, List.append_nil]
      exact ⟨hfound.widen hstop, fun s hs htag => .inl (hfound.inside s hs htag)⟩
    | some s =>
      obtain ⟨hlo, hhi⟩ := hsite s rfl
      have hown : Nested text limit lo stop [s.endingAt stop] :=
        .singleton ⟨hlo, Nat.le_trans hhi hstop, hlimit⟩ fun _ => Nat.le_refl _
      refine ⟨(hfound.widen hstop).append hown (Nat.le_refl _) fun t ht _ => ?_,
        fun t ht htag => ?_⟩
      · rw [List.mem_singleton.1 ht]
        exact .inr (Nat.le_refl _)
      · rcases List.mem_append.1 ht with ht | ht
        · exact .inl (hfound.inside t ht htag)
        · rw [List.mem_singleton.1 ht]
          exact .inr (Nat.le_refl _)

theorem Stacked.le (h : Stacked text limit lo hi frames) : lo ≤ hi := by
  induction h with
  | nil hle => exact hle
  | cons _ hle _ ih => exact Nat.le_trans ih hle

theorem Stacked.mono (h : Stacked text limit lo hi frames) {hi' : Nat} (hhi : hi ≤ hi') :
    Stacked text limit lo hi' frames := by
  cases h with
  | nil hle => exact .nil (Nat.le_trans hle hhi)
  | cons h hle hf => exact .cons h (Nat.le_trans hle hhi) (hf.mono hhi)

/-- Sites found further on go into the innermost frame. -/
theorem Stacked.record (h : Stacked text limit lo mid frames)
    (hsites : Nested text limit mid hi sites) (hle : mid ≤ hi) :
    Stacked text limit lo hi (recordSites sites frames) := by
  cases h with
  | nil hlo => exact .cons (.nil hlo) hle hsites
  | cons h hmid hf => exact .cons h (Nat.le_trans hmid hle) (hf.record hmid hle hsites)

theorem Stacked.openBrace (h : Stacked text limit lo hi frames) :
    Stacked text limit lo hi (openBrace frames) := by
  unfold ComponentAudit.openBrace
  split
  · cases h with
    | cons h hle hf => exact .cons h hle hf
  · exact h

theorem Stacked.closeBrace (h : Stacked text limit lo hi frames) :
    Stacked text limit lo hi (closeBrace frames) := by
  unfold ComponentAudit.closeBrace
  split
  · cases h with
    | cons h hle hf => exact .cons h hle hf
  · cases h with
    | cons h hle hf => exact h.record hf hle
  · exact h

/-! ### Closing frames -/

/-- When all frames close at one place, the extents nest: each element contains what is inside, and
the others were over before. -/
theorem Stacked.nested (h : Stacked text limit lo hi frames) (hstop : hi ≤ stop)
    (hlimit : stop ≤ limit) :
    Nested text limit lo stop (closeAll stop frames) ∧
      ∀ s ∈ closeAll stop frames, s.IsTag text → s.stop ≤ hi ∨ stop ≤ s.stop := by
  induction h with
  | nil => exact ⟨.nil, fun _ hs => absurd hs List.not_mem_nil⟩
  | @cons mid hi f frames h hle hf ih =>
    obtain ⟨houter, hends⟩ := ih (Nat.le_trans hle hstop)
    obtain ⟨hinner, hends'⟩ := hf.close hstop hlimit
    rw [closeAll, List.flatMap_cons]
    refine ⟨hinner.append houter h.le hends, fun s hs htag => ?_⟩
    rcases List.mem_append.1 hs with hs | hs
    · exact hends' s hs htag
    · exact (hends s hs htag).imp_left (Nat.le_trans · hle)

/-- Frames can be taken off, and what is left ends before them. -/
theorem Stacked.split {closed : List Frame} (h : Stacked text limit lo hi (closed ++ frames)) :
    ∃ mid, Stacked text limit lo mid frames ∧ Stacked text limit mid hi closed := by
  induction closed generalizing hi with
  | nil => exact ⟨hi, h, .nil (Nat.le_refl _)⟩
  | cons f closed ih =>
    cases h with
    | cons h hle hf =>
      obtain ⟨mid, hframes, hclosed⟩ := ih h
      exact ⟨mid, hframes, .cons hclosed hle hf⟩

/-- The innermost frames close at one place and hand their sites on. -/
theorem Stacked.close {closed : List Frame} (h : Stacked text limit lo hi (closed ++ frames))
    (hstop : hi ≤ stop) (hlimit : stop ≤ limit) :
    Stacked text limit lo stop (recordSites (closeAll stop closed) frames) := by
  obtain ⟨mid, hframes, hclosed⟩ := h.split
  exact hframes.record (hclosed.nested hstop hlimit).1 (Nat.le_trans hclosed.le hstop)

/-- A closing tag ends its element and all that is open in it, and their sites nest in the frame
below. -/
theorem Stacked.closeElements {name : List Char} (h : Stacked text limit lo hi frames)
    {rest : List Frame} (hclose : closeElements? name stop frames = some (sites, rest))
    (hstop : hi ≤ stop) (hlimit : stop ≤ limit) :
    Stacked text limit lo stop (recordSites sites rest) := by
  have hclosed := Offset.closing?_modesOf name stop 0 frames
  rw [hclose] at hclosed
  obtain ⟨closed, rfl, rfl, -, -⟩ := hclosed
  exact h.close hstop hlimit

end Frames

end ComponentAudit
