import ComponentAudit.Proofs.Invocation.Markup

/-!
# Where usages are

A usage gives the line and the column of its invocation, both counted from one; only a line feed
ends a line, and columns count characters. `StandsAt text line column rest` says what the two mean
without counting through the text: `rest` is preceded by whole lines and by a part of its own line.
A line and a column denote at most one place (`StandsAt.unique`), and `positionAt` finds them.

The main statement is `extract_usages_located`: every usage that is reported is a real invocation at
the position given for it, and no position is reported twice, for the positions ascend.
-/

namespace ComponentAudit

/-! ### Lines and columns -/

/-- The text goes on with `rest`, which is not empty, from the given line and column on. -/
def StandsAt (text : List Char) (line column : Nat) (rest : List Char) : Prop :=
  rest ≠ [] ∧ ∃ above left : List Char, text = above ++ left ++ rest ∧
    (above = [] ∨ above.getLast? = some '\n') ∧ above.count '\n' + 1 = line ∧
      '\n' ∉ left ∧ left.length + 1 = column

/-- Of two stretches of whole lines with the same number of lines, the longer one is no longer. -/
private theorem lines_eq_of_isPrefix {above more : List Char}
    (hend : above ++ more = [] ∨ (above ++ more).getLast? = some '\n')
    (hcount : (above ++ more).count '\n' = above.count '\n') : more = [] := by
  refine Classical.byContradiction fun hmore => ?_
  have hlast : more.getLast? = some '\n' := by
    rcases hend with hnil | hlast
    · exact absurd (List.append_eq_nil_iff.1 hnil).2 hmore
    · rwa [List.getLast?_append, Option.or_of_isSome (by simpa using hmore)] at hlast
  have hpos : 0 < more.count '\n' := List.count_pos_iff.2 (List.mem_of_getLast? hlast)
  rw [List.count_append] at hcount
  omega

/-- A line and a column denote at most one place of a text. -/
theorem StandsAt.unique {text rest rest' : List Char} {line column : Nat}
    (h : StandsAt text line column rest) (h' : StandsAt text line column rest') :
    rest = rest' := by
  obtain ⟨_, above, left, htext, hend, hline, _, hcolumn⟩ := h
  obtain ⟨_, above', left', htext', hend', hline', _, hcolumn'⟩ := h'
  have habove : above = above' := by
    have hcount : above.count '\n' = above'.count '\n' := by omega
    have hbegin : above <+: text := ⟨left ++ rest, by rw [htext, List.append_assoc]⟩
    have hbegin' : above' <+: text := ⟨left' ++ rest', by rw [htext', List.append_assoc]⟩
    rcases List.prefix_or_prefix_of_prefix hbegin hbegin' with ⟨more, rfl⟩ | ⟨more, rfl⟩
    · rw [lines_eq_of_isPrefix hend' hcount.symm, List.append_nil]
    · rw [lines_eq_of_isPrefix hend hcount, List.append_nil]
  subst habove
  rw [htext, List.append_assoc, List.append_assoc, List.append_cancel_left_eq] at htext'
  exact (List.append_inj htext' (by omega)).2

/-! ### Positions of places -/

private theorem positionAt_succ {text : List Char} {n : Nat} (h : n < text.length) :
    positionAt text (n + 1) = (positionAt text n).after text[n] := by
  rw [positionAt, positionAt, List.take_succ_eq_append_getElem h, List.foldl_append]
  rfl

/-- The position of a place, by the lines above it and the characters to its left. -/
theorem exists_positionAt_eq {text : List Char} {n : Nat} (h : n ≤ text.length) :
    ∃ above left : List Char, text.take n = above ++ left ∧
      (above = [] ∨ above.getLast? = some '\n') ∧ '\n' ∉ left ∧
        positionAt text n = ⟨above.count '\n' + 1, left.length + 1⟩ := by
  induction n with
  | zero => exact ⟨[], [], by simp, .inl rfl, List.not_mem_nil, rfl⟩
  | succ n ih =>
    obtain ⟨above, left, htake, hend, hleft, hposition⟩ := ih (Nat.le_of_succ_le h)
    have hn : n < text.length := h
    rw [positionAt_succ hn, List.take_succ_eq_append_getElem hn, htake, hposition, Position.after]
    -- A line feed moves everything to its left above the line.
    by_cases hc : text[n] = '\n'
    · refine ⟨above ++ left ++ ['\n'], [], by simp [hc], .inr (by simp), List.not_mem_nil, ?_⟩
      have : left.count '\n' = 0 := List.count_eq_zero.2 hleft
      simp [hc, this]
    · refine ⟨above, left ++ [text[n]], by simp, hend, ?_, by simp [hc]⟩
      simpa [hleft] using Ne.symm hc

/-- The position of a place denotes it. -/
theorem standsAt_positionAt {text : List Char} {n : Nat} (h : n < text.length) :
    StandsAt text (positionAt text n).line (positionAt text n).column (text.drop n) := by
  obtain ⟨above, left, htake, hend, hleft, hposition⟩ := exists_positionAt_eq (Nat.le_of_lt h)
  rw [hposition]
  refine ⟨by simpa using h, above, left, ?_, hend, rfl, hleft, rfl⟩
  rw [← htake, List.take_append_drop]

/-- One position comes before another: on an earlier line, or on the same line further left. -/
def Position.Before (p q : Position) : Prop :=
  p.line < q.line ∨ p.line = q.line ∧ p.column < q.column

/-- Positions are ordered. -/
theorem Position.Before.trans {p q r : Position} (h : p.Before q) (h' : q.Before r) :
    p.Before r := by
  unfold Position.Before at *
  omega

private theorem Position.before_after (p : Position) (c : Char) : p.Before (p.after c) := by
  unfold Position.after
  split
  · exact .inl (Nat.lt_succ_self _)
  · exact .inr ⟨rfl, Nat.lt_succ_self _⟩

/-- Later places have later positions. -/
theorem positionAt_before {text : List Char} {m n : Nat} (hlt : m < n) (hn : n ≤ text.length) :
    (positionAt text m).Before (positionAt text n) := by
  induction n with
  | zero => exact absurd hlt (Nat.not_lt_zero m)
  | succ n ih =>
    rw [positionAt_succ hn]
    have hstep := (positionAt text n).before_after text[n]
    rcases Nat.lt_or_eq_of_le (Nat.le_of_lt_succ hlt) with hlt' | rfl
    · exact (ih hlt' (Nat.le_of_succ_le hn)).trans hstep
    · exact hstep

/-! ### Usages -/

/-- Every site has an entry for its parent. -/
theorem length_parentWalk (sites : List Site) :
    ∀ (enclosing : List (Nat × Nat)) (n : Nat),
      (parentWalk enclosing n sites).length = sites.length := by
  induction sites with
  | nil => intro _ _; rfl
  | cons s rest ih =>
    intro enclosing n
    rw [parentWalk, List.length_cons, ih, List.length_cons]

private theorem zipWith_zip_map {α β γ δ : Type} (f : α → β → γ → δ) (g : α → β) (l : List α) :
    ∀ ps : List γ, List.zipWith (fun a (x : β × γ) => f a x.1 x.2) l ((l.map g).zip ps) =
      List.zipWith (fun a p => f a (g a) p) l ps := by
  induction l with
  | nil => intro ps; rfl
  | cons a l ih =>
    intro ps
    cases ps with
    | nil => rfl
    | cons p ps => simp only [List.map_cons, List.zip_cons_cons, List.zipWith_cons_cons, ih]

/-- The usages at sites in order: each has the position of its own place. -/
theorem usagesOf_eq_zipWith {text : List Char} {path : String} {sites : List Site}
    (h : (sites.map (·.start)).Pairwise (· ≤ ·)) :
    usagesOf text path sites =
      List.zipWith (fun s parent => s.toUsage path (positionAt text s.start) parent) sites
        (parents sites) := by
  rw [usagesOf, positions_eq_map_positionAt h, List.map_map]
  exact zipWith_zip_map (fun s position parent => Site.toUsage s path position parent)
    (positionAt text ∘ Site.start) sites (parents sites)

private theorem map_zipWith_left {α β γ δ : Type} (f : α → β → γ) (g : γ → δ) (k : α → δ)
    (hfg : ∀ a b, g (f a b) = k a) (l : List α) :
    ∀ ps : List β, ps.length = l.length → (List.zipWith f l ps).map g = l.map k := by
  induction l with
  | nil => intro ps _; rfl
  | cons a l ih =>
    intro ps hlength
    cases ps with
    | nil => cases hlength
    | cons p ps =>
      rw [List.zipWith_cons_cons, List.map_cons, hfg, ih ps (Nat.succ.inj hlength), List.map_cons]

/-- What a usage says about its invocation: the tag, the catalog name and the position. -/
def Usage.sighting (u : Usage) : String × String × Position :=
  (u.tag, u.componentName, ⟨u.lineNumber, u.column⟩)

/-- **Positions of usages.** The usages at sites in the order of their places have the positions of
these places. -/
theorem map_sighting_usagesOf (text : List Char) (path : String) {sites : List Site}
    (h : (sites.map (·.start)).Pairwise (· ≤ ·)) :
    (usagesOf text path sites).map Usage.sighting =
      sites.map fun s => (s.tag, s.name, positionAt text s.start) := by
  rw [usagesOf_eq_zipWith h]
  exact map_zipWith_left (fun s parent => s.toUsage path (positionAt text s.start) parent)
    Usage.sighting (fun s => (s.tag, s.name, positionAt text s.start)) (fun _ _ => rfl) sites
    (parents sites) (length_parentWalk sites [] 0)

/-- The sites of a text have ascending places. -/
theorem findSites_pairwise_lt {options : ExtractOptions} {dialect : Dialect} {text : List Char}
    {sites : List Site} (h : findSites options dialect text = .ok sites) :
    sites.Pairwise fun a b => a.start < b.start := by
  have hbackwards := (findSites_traced h).backwards
  rwa [List.map_reverse, List.pairwise_reverse, List.pairwise_map] at hbackwards

/-- The usages of a text are those at its sites. -/
theorem exists_sites_of_extract {options : ExtractOptions} {path text : String}
    {usages : List Usage} (h : extract options path text = .ok usages) :
    ∃ sites, findSites options (Dialect.ofPath ⟨path⟩) text.toList = .ok sites ∧
      usages.map Usage.sighting =
        sites.map fun s => (s.tag, s.name, positionAt text.toList s.start) := by
  rw [extract] at h
  cases hsites : findSites options (Dialect.ofPath ⟨path⟩) text.toList with
  | error e =>
    rw [hsites] at h
    cases h
  | ok sites =>
    rw [hsites] at h
    cases h
    have hle := (findSites_pairwise_lt hsites).imp fun h => Nat.le_of_lt h
    exact ⟨sites, rfl, map_sighting_usagesOf text.toList path (List.pairwise_map.2 hle)⟩

/-- **Every usage is real, located and reported once.** The position of a usage lies inside the
text, what stands there begins with an invocation of the tag of the usage (only a call, where tags
do not count), the tag has the catalog name of the usage, and the positions strictly ascend. -/
theorem extract_usages_located {options : ExtractOptions} {path text : String}
    {usages : List Usage} (h : extract options path text = .ok usages) :
    (∀ u ∈ usages, (∃ rest, StandsAt text.toList u.lineNumber u.column rest) ∧
      (∀ rest, StandsAt text.toList u.lineNumber u.column rest →
        BeginsInvocation (Dialect.ofPath ⟨path⟩).hasTags u.tag.toList rest) ∧
      canonicalNameOf? options.marker u.tag = some u.componentName) ∧
    usages.Pairwise fun u v =>
      Position.Before ⟨u.lineNumber, u.column⟩ ⟨v.lineNumber, v.column⟩ := by
  obtain ⟨sites, hsites, hsightings⟩ := exists_sites_of_extract h
  have htraced := findSites_traced hsites
  have hmem : ∀ s ∈ sites, s.invocation ∈ sites.reverse.map Site.invocation := fun s hs =>
    List.mem_map_of_mem (List.mem_reverse.2 hs)
  have hinside : ∀ s ∈ sites, s.start < text.toList.length := fun s hs =>
    (htraced.bounds _ (hmem s hs)).2
  refine ⟨fun u hu => ?_, ?_⟩
  · have husage : u.sighting ∈ usages.map Usage.sighting := List.mem_map_of_mem hu
    rw [hsightings] at husage
    -- Rules add issues to a usage but leave its tag, name and position those of a site.
    obtain ⟨s, hs, hsu⟩ := List.mem_map.1 husage
    simp only [Usage.sighting, Prod.mk.injEq] at hsu
    obtain ⟨htag, hname, hposition⟩ := hsu
    have hreal := htraced.real _ (hmem s hs)
    have hstands : StandsAt text.toList u.lineNumber u.column (text.toList.drop s.start) := by
      have := standsAt_positionAt (hinside s hs)
      rwa [hposition] at this
    refine ⟨⟨_, hstands⟩, fun rest hrest => ?_, ?_⟩
    · rw [hrest.unique hstands, ← htag]
      exact hreal.begins
    · have hcanonical : canonicalName? options.marker.toList s.tag.toList = some s.name.toList :=
        hreal.canonical
      rw [canonicalNameOf?, ← htag, hcanonical, ← hname, Option.map_some, String.ofList_toList]
  · have hpositions : (sites.map fun s => (s.tag, s.name, positionAt text.toList s.start)).Pairwise
        fun a b => a.2.2.Before b.2.2 := by
      refine List.pairwise_map.2 ((findSites_pairwise_lt hsites).imp_of_mem fun hs hs' hlt => ?_)
      exact positionAt_before hlt (Nat.le_of_lt (hinside _ hs'))
    rw [← hsightings, List.pairwise_map] at hpositions
    exact hpositions

/-- A tag after a character of two bytes, and a call with a quoted name on the next line. -/
theorem extract_usages_located_tag_and_call :
    ∃ usages, extract {} "a.jsx" "é = <VaButton/>;\nh ('va-link')" = .ok usages ∧
      usages.map Usage.sighting =
        [("VaButton", "va-button", ⟨1, 5⟩), ("va-link", "va-link", ⟨2, 1⟩)] ∧
      (∀ u ∈ usages, ∀ rest,
        StandsAt "é = <VaButton/>;\nh ('va-link')".toList u.lineNumber u.column rest →
          BeginsInvocation true u.tag.toList rest) ∧
      usages.Pairwise fun u v =>
        Position.Before ⟨u.lineNumber, u.column⟩ ⟨v.lineNumber, v.column⟩ := by
  have hscan : scanText {} (.script true) "é = <VaButton/>;\nh ('va-link')".toList =
      .ok [⟨"va-link", "va-link", 17, 30, {}, false⟩,
        ⟨"VaButton", "va-button", 4, 15, {}, false⟩] := rfl
  have hdialect : Dialect.ofPath ⟨"a.jsx"⟩ = .script true := by decide +kernel
  have hsites := findSites_eq_reverse (by decide +kernel) (by decide +kernel) hscan
  have hextract : extract {} "a.jsx" "é = <VaButton/>;\nh ('va-link')" =
      .ok (usagesOf "é = <VaButton/>;\nh ('va-link')".toList "a.jsx"
        [⟨"VaButton", "va-button", 4, 15, {}, false⟩,
          ⟨"va-link", "va-link", 17, 30, {}, false⟩]) := by
    rw [extract, hdialect, hsites]
    rfl
  obtain ⟨hreal, hascending⟩ := extract_usages_located hextract
  refine ⟨_, hextract, rfl, fun u hu => ?_, hascending⟩
  have hbegins := (hreal u hu).2.1
  rwa [hdialect] at hbegins

end ComponentAudit
