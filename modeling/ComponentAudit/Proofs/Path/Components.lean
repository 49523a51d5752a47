import ComponentAudit.Path.Relative

/-!
# Paths by their components

Paths are compared by their components, so what an operation does to a path is said by what it does
to the components. A list of components is *well formed* when it is that of some path: at most the
first one is a root or a leading `.`, and the others are steps, `..` or a name.

* Writing a well-formed list down, by `display` or by joining its components, loses nothing:
  `components_display`, `components_ofComponents`.
* Below a directory the relative path has the components that follow those of the directory
  (`components_relativeTo`). So paths below one directory are told apart by how they are displayed
  relative to it.
* `componentsLt` is a strict total order.
-/

namespace ComponentAudit

/-! ### Splitting -/

namespace Text

theorem splitAt_ne_nil (sep : Char) (s : List Char) : splitAt sep s ≠ [] := by
  cases s with
  | nil => simp [splitAt]
  | cons c s =>
    rw [splitAt]
    split
    · simp
    · split <;> simp

/-- The pieces on the two sides of a separator. -/
theorem splitAt_append_sep (sep : Char) (s t : List Char) :
    splitAt sep (s ++ sep :: t) = splitAt sep s ++ splitAt sep t := by
  induction s with
  | nil => simp [splitAt]
  | cons c s ih =>
    rw [List.cons_append, splitAt, splitAt, ih]
    split
    · rfl
    · cases h : splitAt sep s with
      | nil => exact absurd h (splitAt_ne_nil sep s)
      | cons p ps => rfl

/-- A text without the separator is one piece. -/
theorem splitAt_eq_singleton {sep : Char} {s : List Char} (h : sep ∉ s) : splitAt sep s = [s] := by
  induction s with
  | nil => rfl
  | cons c s ih =>
    obtain ⟨hc, hs⟩ := not_or.1 (mt List.mem_cons.2 h)
    rw [splitAt, if_neg (Ne.symm hc), ih hs]

/-- The separator is in no piece. -/
theorem not_mem_of_mem_splitAt {sep : Char} {s p : List Char} (h : p ∈ splitAt sep s) :
    sep ∉ p := by
  induction s generalizing p with
  | nil => simp_all [splitAt]
  | cons c s ih =>
    rw [splitAt] at h
    split at h
    · rcases List.mem_cons.1 h with rfl | h
      · exact List.not_mem_nil
      · exact ih h
    · next hc =>
      cases hs : splitAt sep s with
      | nil => exact absurd hs (splitAt_ne_nil sep s)
      | cons q qs =>
        rw [hs] at h ih
        rcases List.mem_cons.1 h with rfl | h
        · exact List.not_mem_cons_of_ne_of_not_mem (Ne.symm hc) (ih List.mem_cons_self)
        · exact ih (List.mem_cons_of_mem _ h)

end Text

/-! ### Steps -/

/-- A component that can stand anywhere in a path: `..` or a name. -/
structure PathComponent.IsStep (c : PathComponent) : Prop where
  slash : '/' ∉ c.text.toList
  trivial : Path.isTrivial c.text.toList = false
  component : Path.componentOf c.text.toList = c

namespace Path

/-- The steps in a text that follows the beginning of a path. -/
def stepsOf (body : List Char) : List PathComponent :=
  ((pieces body).filter fun p => !isTrivial p).map componentOf

/-- The components are those of the head and the steps behind it. -/
theorem componentsOf_eq (s : List Char) :
    componentsOf s = (splitHead s).1.components ++ stepsOf (splitHead s).2 := rfl

/-- The steps on both sides of a slash. -/
theorem stepsOf_append_slash (s t : List Char) :
    stepsOf (s ++ '/' :: t) = stepsOf s ++ stepsOf t := by
  rw [stepsOf, pieces, Text.splitAt_append_sep, List.filter_append, List.map_append]
  rfl

private theorem stepsOf_text {c : PathComponent} (h : c.IsStep) : stepsOf c.text.toList = [c] := by
  rw [stepsOf, pieces, Text.splitAt_eq_singleton h.slash]
  simp [h.trivial, h.component]

/-- A component is written as it was read. -/
theorem toList_text_componentOf (p : List Char) : (componentOf p).text.toList = p := by
  rw [componentOf]
  split
  · next h => rw [h]; rfl
  · exact String.toList_ofList

private theorem isStep_of_mem_stepsOf {body : List Char} {c : PathComponent}
    (h : c ∈ stepsOf body) :
    c.IsStep := by
  obtain ⟨p, hp, rfl⟩ := List.mem_map.1 h
  obtain ⟨hmem, htrivial⟩ := List.mem_filter.1 hp
  have htext := toList_text_componentOf p
  exact ⟨htext.symm ▸ Text.not_mem_of_mem_splitAt hmem, htext.symm ▸ by simpa using htrivial,
    by rw [htext]⟩

/-! ### Well-formed lists of components -/

/-- The components are those of a path: a beginning, then steps. -/
def WellFormed (cs : List PathComponent) : Prop :=
  ∃ (head : Head) (steps : List PathComponent),
    cs = head.components ++ steps ∧ ∀ c ∈ steps, c.IsStep

/-- **Components of a path.** Only the first of them may be a root or a dot. -/
theorem wellFormed_components (p : Path) : WellFormed p.components :=
  ⟨_, _, componentsOf_eq p.text.toList, fun _ => isStep_of_mem_stepsOf⟩

/-- What follows some components is well formed again: after the first one there are only steps. -/
theorem WellFormed.drop {cs : List PathComponent} (h : WellFormed cs) (n : Nat) :
    WellFormed (cs.drop n) := by
  obtain ⟨head, steps, rfl, hsteps⟩ := h
  cases n with
  | zero => exact ⟨head, steps, rfl, hsteps⟩
  | succ n =>
    cases head with
    | root => exact ⟨.none, steps.drop n, rfl, fun c hc => hsteps c (List.mem_of_mem_drop hc)⟩
    | current => exact ⟨.none, steps.drop n, rfl, fun c hc => hsteps c (List.mem_of_mem_drop hc)⟩
    | none =>
      exact ⟨.none, steps.drop (n + 1), rfl, fun c hc => hsteps c (List.mem_of_mem_drop hc)⟩

/-! ### Putting paths together -/

/-- How a path begins does not depend on what follows its first slash. -/
private theorem splitHead_append_slash {s : List Char} (hs : s ≠ []) (t : List Char) :
    splitHead (s ++ '/' :: t) = ((splitHead s).1, (splitHead s).2 ++ '/' :: t) := by
  fun_cases splitHead s with
  | case1 s => rfl
  | case2 => rfl
  | case3 s => rfl
  | case4 _ hroot hdot hcurrent =>
    obtain ⟨c, s, rfl⟩ := List.exists_cons_of_ne_nil hs
    rw [List.cons_append, splitHead]
    · intro rest h
      exact hroot s (by rw [(List.cons.inj h).1])
    · intro h
      cases s <;> simp at h
    · intro rest h
      obtain ⟨rfl, htail⟩ := List.cons.inj h
      cases s with
      | nil => exact hdot rfl
      | cons d s => exact hcurrent s (by rw [(List.cons.inj htail).1])

/-- A slash after the start of a path separates steps. -/
theorem componentsOf_append_slash {s : List Char} (hs : s ≠ []) (t : List Char) :
    componentsOf (s ++ '/' :: t) = componentsOf s ++ stepsOf t := by
  rw [componentsOf_eq, componentsOf_eq, splitHead_append_slash hs, stepsOf_append_slash,
    List.append_assoc]

/-- After a slash there are only steps. -/
theorem componentsOf_append_of_getLast? {s : List Char} (hs : s.getLast? = some '/')
    (t : List Char) : componentsOf (s ++ t) = componentsOf s ++ stepsOf t := by
  obtain ⟨s, rfl⟩ : ∃ r, s = r ++ ['/'] := List.getLast?_eq_some_iff.1 hs
  rw [List.append_assoc, List.singleton_append]
  cases s with
  | nil => rfl
  | cons c s =>
    rw [componentsOf_append_slash (List.cons_ne_nil c s),
      componentsOf_append_slash (List.cons_ne_nil c s) []]
    simp [stepsOf, pieces, Text.splitAt, isTrivial]

/-- A step on its own is read back. -/
theorem componentsOf_text {c : PathComponent} (h : c.IsStep) :
    componentsOf c.text.toList = [c] := by
  have hhead : splitHead c.text.toList = (.none, c.text.toList) := by
    have hslash := h.slash
    have htrivial := h.trivial
    revert hslash htrivial
    fun_cases splitHead c.text.toList <;> simp [isTrivial]
  rw [componentsOf_eq, hhead, stepsOf_text h]
  rfl

private theorem isAbsolute_text {c : PathComponent} (h : c.IsStep) :
    isAbsolute ⟨c.text⟩ = false := by
  have hslash := h.slash
  cases htext : c.text.toList with
  | nil => simp [isAbsolute, htext]
  | cons a s =>
    rw [htext] at hslash
    have ha : a ≠ '/' := fun ha => hslash (ha ▸ List.mem_cons_self)
    simpa [isAbsolute, htext] using ha

/-- A step taken from a path comes after the components of the path. -/
theorem components_join (p : Path) {c : PathComponent} (h : c.IsStep) :
    (p.join ⟨c.text⟩).components = p.components ++ [c] := by
  rw [join, isAbsolute_text h, if_neg Bool.false_ne_true]
  split
  · next hlast =>
    rw [List.getLast?_eq_none_iff] at hlast
    rw [components, components, hlast, componentsOf_text h]
    rfl
  · next hlast =>
    rw [components, components, String.toList_append, componentsOf_append_of_getLast? hlast,
      stepsOf_text h]
  · next last hlast =>
    have hne : p.text.toList ≠ [] := by
      intro hnil
      simp [hnil] at hlast
    rw [components, components, String.toList_append, String.toList_append, List.append_assoc,
      ← stepsOf_text h]
    exact componentsOf_append_slash hne _

/-- A path made of well-formed components has these components. -/
theorem components_ofComponents {cs : List PathComponent} (h : WellFormed cs) :
    (ofComponents cs).components = cs := by
  obtain ⟨head, steps, rfl, hsteps⟩ := h
  have hfold : ∀ (steps : List PathComponent) (p : Path), (∀ c ∈ steps, c.IsStep) →
      (steps.foldl (fun p c => p.join ⟨c.text⟩) p).components = p.components ++ steps := by
    intro steps
    induction steps with
    | nil => intro p _; simp
    | cons c steps ih =>
      intro p hsteps
      rw [List.foldl_cons, ih _ fun d hd => hsteps d (List.mem_cons_of_mem _ hd),
        components_join p (hsteps c List.mem_cons_self), List.append_assoc, List.singleton_append]
  rw [ofComponents, List.foldl_append, hfold steps _ hsteps]
  congr 1
  cases head <;> rfl

/-! ### Displayed paths -/

private theorem stepsOf_intercalate {steps : List PathComponent} (h : ∀ c ∈ steps, c.IsStep) :
    stepsOf (['/'].intercalate (steps.map fun c => c.text.toList)) = steps := by
  induction steps with
  | nil => rfl
  | cons c steps ih =>
    have hc := h c List.mem_cons_self
    have hrest := ih fun d hd => h d (List.mem_cons_of_mem _ hd)
    cases steps with
    | nil => simpa using stepsOf_text hc
    | cons d steps =>
      rw [List.map_cons] at hrest
      rw [List.map_cons, List.map_cons, List.intercalate_cons_cons, List.append_assoc,
        List.singleton_append, stepsOf_append_slash, stepsOf_text hc, hrest, List.singleton_append]

private theorem componentsOf_intercalate {a : PathComponent} {steps : List PathComponent}
    (ha : componentsOf a.text.toList = [a]) (h : ∀ c ∈ steps, c.IsStep) :
    componentsOf (['/'].intercalate ((a :: steps).map fun c => c.text.toList)) = a :: steps := by
  have hne : a.text.toList ≠ [] := by
    intro hnil
    rw [hnil] at ha
    cases ha
  cases steps with
  | nil => simpa using ha
  | cons c steps =>
    have hsteps := stepsOf_intercalate h
    rw [List.map_cons] at hsteps
    rw [List.map_cons, List.map_cons, List.intercalate_cons_cons, List.append_assoc,
      List.singleton_append, componentsOf_append_slash hne, ha, hsteps, List.singleton_append]

/-- A displayed path has the components of the path. -/
theorem components_display (p : Path) : components ⟨p.display⟩ = p.components := by
  obtain ⟨head, steps, hcs, hsteps⟩ := wellFormed_components p
  have htext : p.display.toList = ['/'].intercalate (p.components.map fun c => c.text.toList) := by
    rw [display, String.toList_intercalate, List.map_map]
    rfl
  rw [components, htext, hcs]
  cases head with
  | root => exact componentsOf_intercalate rfl hsteps
  | current => exact componentsOf_intercalate rfl hsteps
  | none =>
    cases steps with
    | nil => rfl
    | cons c steps =>
      exact componentsOf_intercalate (componentsOf_text (hsteps c List.mem_cons_self))
        fun d hd => hsteps d (List.mem_cons_of_mem _ hd)

/-! ### Paths below a directory -/

/-- Only a path that has the components of a directory first is below it. -/
theorem isPrefix_of_isSome_below? {p directory : Path} (h : (p.below? directory).isSome) :
    directory.components <+: p.components := by
  rw [below?] at h
  split at h
  · next hp => exact List.isPrefixOf_iff_prefix.1 hp
  · cases h

/-- A path is absolute when its first component is the root. -/
theorem isAbsolute_eq (p : Path) : p.isAbsolute = decide (p.components.head? = some .root) := by
  have hstep : ∀ body : List Char, (stepsOf body).head? ≠ some .root := fun body hhead =>
    absurd (isStep_of_mem_stepsOf (List.mem_of_head? hhead)).slash (by decide)
  rw [isAbsolute, components, componentsOf_eq, Bool.eq_iff_iff, decide_eq_true_iff,
    decide_eq_true_iff]
  fun_cases splitHead p.text.toList with
  | case1 s => simp [Head.components]
  | case2 => simp [Head.components]
  | case3 s => simp [Head.components]
  | case4 _ hroot _ _ =>
    refine iff_of_false (fun hhead => ?_) (hstep _)
    obtain ⟨rest, hrest⟩ := List.head?_eq_some_iff.1 hhead
    exact hroot rest hrest

private theorem climb?_append (cs rest : List PathComponent) :
    climb? [] (cs ++ rest) cs = some rest := by
  induction cs with
  | nil => cases rest <;> simp [climb?]
  | cons c cs ih => simpa [climb?] using ih

/-- Below a directory, the relative path has the components that follow those of the directory. -/
theorem components_relativeTo {p directory : Path}
    (h : directory.components <+: p.components) :
    (p.relativeTo directory).components = p.components.drop directory.components.length := by
  have hwell : WellFormed (p.components.drop directory.components.length) :=
    (wellFormed_components p).drop _
  obtain ⟨rest, hrest⟩ := h
  rw [relativeTo]
  split
  · next habsolute =>
    -- Only the empty path has absolute paths below it and is not absolute itself.
    cases hd : directory.components with
    | nil => rfl
    | cons c cs =>
      refine absurd ?_ habsolute
      rw [isAbsolute_eq, isAbsolute_eq, ← hrest, hd]
      rfl
  · rw [← hrest, climb?_append]
    rw [← hrest, List.drop_left] at hwell
    rw [List.drop_left]
    exact components_ofComponents hwell

end Path

/-! ### The order of paths -/

/-- Components are ordered by their kind, and names by their text. -/
theorem PathComponent.lt_eq_true_iff {a b : PathComponent} : a.lt b = true ↔
    a.rank < b.rank ∨ ∃ x y, a = .normal x ∧ b = .normal y ∧ x < y := by
  by_cases hnames : ∃ x y, a = .normal x ∧ b = .normal y
  · obtain ⟨x, y, rfl, rfl⟩ := hnames
    rw [PathComponent.lt, decide_eq_true_iff]
    refine ⟨fun hlt => .inr ⟨x, y, rfl, rfl, hlt⟩, ?_⟩
    rintro (hlt | ⟨_, _, hx, hy, hlt⟩)
    · exact absurd hlt (Nat.lt_irrefl 3)
    · cases hx
      cases hy
      exact hlt
  · rw [PathComponent.lt, decide_eq_true_iff]
    · refine ⟨.inl, ?_⟩
      rintro (hlt | ⟨x, y, hx, hy, -⟩)
      · exact hlt
      · exact absurd ⟨x, y, hx, hy⟩ hnames
    · exact fun x y hx hy => hnames ⟨x, y, hx, hy⟩

private theorem PathComponent.rank_le (a : PathComponent) : a.rank ≤ 3 := by
  cases a <;> simp [PathComponent.rank]

/-- No component comes before itself. -/
theorem PathComponent.lt_irrefl (a : PathComponent) : a.lt a = false := by
  rw [Bool.eq_false_iff, ne_eq, PathComponent.lt_eq_true_iff]
  rintro (h | ⟨x, y, hx, hy, hlt⟩)
  · exact Nat.lt_irrefl _ h
  · cases hx.symm.trans hy
    exact Std.lt_irrefl hlt

/-- The order of components is transitive. -/
theorem PathComponent.lt_trans {a b c : PathComponent} (hab : a.lt b = true) (hbc : b.lt c = true) :
    a.lt c = true := by
  rw [PathComponent.lt_eq_true_iff] at hab hbc ⊢
  rcases hab with hab | ⟨x, y, rfl, rfl, hxy⟩
  · rcases hbc with hbc | ⟨y, z, rfl, rfl, -⟩
    · exact .inl (Nat.lt_trans hab hbc)
    · exact .inl hab
  · rcases hbc with hbc | ⟨y', z, hy, rfl, hyz⟩
    · exact absurd hbc (Nat.not_lt.2 c.rank_le)
    · cases hy
      exact .inr ⟨x, z, rfl, rfl, Std.lt_trans hxy hyz⟩

/-- Of two different components one comes before the other. -/
theorem PathComponent.lt_or_lt_of_ne {a b : PathComponent} (h : a ≠ b) :
    a.lt b = true ∨ b.lt a = true := by
  rw [PathComponent.lt_eq_true_iff, PathComponent.lt_eq_true_iff]
  rcases Nat.lt_trichotomy a.rank b.rank with hlt | heq | hgt
  · exact .inl (.inl hlt)
  · -- Components of one rank are equal unless they are names.
    cases a <;> cases b <;> try cases heq
    · exact absurd rfl h
    · exact absurd rfl h
    · exact absurd rfl h
    · next x y =>
      have hne : x ≠ y := fun hxy => h (hxy ▸ rfl)
      rcases Std.le_total (a := x) (b := y) with hle | hle
      · exact .inl (.inr ⟨x, y, rfl, rfl, Std.lt_of_le_of_ne hle hne⟩)
      · exact .inr (.inr ⟨y, x, rfl, rfl, Std.lt_of_le_of_ne hle (Ne.symm hne)⟩)
  · exact .inr (.inl hgt)

/-- No path comes before itself. -/
theorem componentsLt_irrefl (as : List PathComponent) : componentsLt as as = false := by
  induction as with
  | nil => rfl
  | cons a as ih => rw [componentsLt, if_pos rfl, ih]

/-- The order of paths is transitive. -/
theorem componentsLt_trans {as bs cs : List PathComponent} (hab : componentsLt as bs = true)
    (hbc : componentsLt bs cs = true) : componentsLt as cs = true := by
  induction as generalizing bs cs with
  | nil =>
    cases cs with
    | nil => cases bs <;> simp [componentsLt] at hbc
    | cons c cs => rfl
  | cons a as ih =>
    cases bs with
    | nil => simp [componentsLt] at hab
    | cons b bs =>
      cases cs with
      | nil => simp [componentsLt] at hbc
      | cons c cs =>
        rw [componentsLt] at hab hbc ⊢
        -- The first difference of `as` and `cs` is the earlier one of the two that are given.
        by_cases hab' : a = b
        · subst hab'
          rw [if_pos rfl] at hab
          split
          · next hac =>
            rw [if_pos hac] at hbc
            exact ih hab hbc
          · next hac => rwa [if_neg hac] at hbc
        · rw [if_neg hab'] at hab
          by_cases hbc' : b = c
          · subst hbc'
            rwa [if_neg hab']
          · rw [if_neg hbc'] at hbc
            have hac := PathComponent.lt_trans hab hbc
            rw [if_neg, hac]
            rintro rfl
            rw [PathComponent.lt_irrefl] at hac
            cases hac

/-- Of two paths with different components one comes before the other. -/
theorem componentsLt_or_of_ne {as bs : List PathComponent} (h : as ≠ bs) :
    componentsLt as bs = true ∨ componentsLt bs as = true := by
  induction as generalizing bs with
  | nil =>
    cases bs with
    | nil => exact absurd rfl h
    | cons b bs => exact .inl rfl
  | cons a as ih =>
    cases bs with
    | nil => exact .inr rfl
    | cons b bs =>
      rw [componentsLt, componentsLt]
      by_cases hab : a = b
      · subst hab
        rw [if_pos rfl, if_pos rfl]
        exact ih fun heq => h (heq ▸ rfl)
      · rw [if_neg hab, if_neg (Ne.symm hab)]
        exact PathComponent.lt_or_lt_of_ne hab

end ComponentAudit
