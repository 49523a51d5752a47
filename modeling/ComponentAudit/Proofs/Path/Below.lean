import ComponentAudit.Proofs.Path.Components

/-!
# Paths that name the same file

Which spellings have the same components, and what the text of a path below a directory stands for.
A repeated slash, a `.` between slashes and a slash at the end add no component, while `..` adds one
(`components_slash_slash`, `components_slash_dot_slash`, `components_slash`,
`length_components_parent`). Cutting a directory off a path keeps the spelling of the rest, whose
components are those that follow the directory's (`components_below?`).
-/

namespace ComponentAudit.Path

/-! ### Spellings -/

private theorem componentsOf_append_slash_append (s t : List Char) :
    componentsOf (s ++ '/' :: t) = componentsOf (s ++ ['/']) ++ stepsOf t := by
  have hlast : (s ++ ['/']).getLast? = some '/' := List.getLast?_concat
  rw [← componentsOf_append_of_getLast? hlast, List.append_assoc, List.singleton_append]

/-- Slashes may be doubled. -/
theorem components_slash_slash (a b : String) :
    components ⟨a ++ "//" ++ b⟩ = components ⟨a ++ "/" ++ b⟩ := by
  simp only [components, String.toList_append, List.append_assoc]
  change componentsOf (a.toList ++ '/' :: ([] ++ '/' :: b.toList)) =
    componentsOf (a.toList ++ '/' :: b.toList)
  rw [componentsOf_append_slash_append, componentsOf_append_slash_append a.toList b.toList,
    stepsOf_append_slash]
  rfl

/-- A dot on its own names nothing. -/
theorem components_slash_dot_slash (a b : String) :
    components ⟨a ++ "/./" ++ b⟩ = components ⟨a ++ "/" ++ b⟩ := by
  simp only [components, String.toList_append, List.append_assoc]
  change componentsOf (a.toList ++ '/' :: (['.'] ++ '/' :: b.toList)) =
    componentsOf (a.toList ++ '/' :: b.toList)
  rw [componentsOf_append_slash_append, componentsOf_append_slash_append a.toList b.toList,
    stepsOf_append_slash]
  rfl

/-- A slash at the end makes no difference. -/
theorem components_slash {a : String} (ha : a ≠ "") :
    components ⟨a ++ "/"⟩ = components ⟨a⟩ := by
  have hne : a.toList ≠ [] := fun h => ha (String.toList_eq_nil_iff.1 h)
  simp only [components, String.toList_append]
  change componentsOf (a.toList ++ '/' :: []) = _
  rw [componentsOf_append_slash hne]
  exact List.append_nil _

/-- A `..` is a component of its own. -/
theorem length_components_parent (a b : String) :
    (components ⟨a ++ "/../" ++ b⟩).length = (components ⟨a ++ "/" ++ b⟩).length + 1 := by
  simp only [components, String.toList_append, List.append_assoc]
  change (componentsOf (a.toList ++ '/' :: (['.', '.'] ++ '/' :: b.toList))).length =
    (componentsOf (a.toList ++ '/' :: b.toList)).length + 1
  rw [componentsOf_append_slash_append, componentsOf_append_slash_append a.toList b.toList,
    stepsOf_append_slash]
  have hparent : stepsOf ['.', '.'] = [.parent] := rfl
  rw [hparent]
  simp only [List.length_append, List.length_singleton]
  omega

/-! ### Pieces -/

/-- The components of pieces between slashes. -/
def stepsIn (ps : List (List Char)) : List PathComponent :=
  (ps.filter fun p => !isTrivial p).map componentOf

private theorem isStep_componentOf {p : List Char} (hslash : '/' ∉ p)
    (htrivial : isTrivial p = false) :
    (componentOf p).IsStep := by
  have htext := toList_text_componentOf p
  exact ⟨by rwa [htext], by rwa [htext], by rw [htext]⟩

private theorem stepsIn_append (ps qs : List (List Char)) :
    stepsIn (ps ++ qs) = stepsIn ps ++ stepsIn qs := by
  rw [stepsIn, List.filter_append, List.map_append]
  rfl

private theorem stepsIn_cons_of_trivial {p : List Char} (h : isTrivial p = true)
    (ps : List (List Char)) :
    stepsIn (p :: ps) = stepsIn ps := by
  rw [stepsIn, List.filter_cons_of_neg (by simp [h])]
  rfl

private theorem stepsIn_cons_of_not_trivial {p : List Char} (h : isTrivial p = false)
    (ps : List (List Char)) : stepsIn (p :: ps) = componentOf p :: stepsIn ps := by
  rw [stepsIn, List.filter_cons_of_pos (by simp [h])]
  rfl

private theorem stepsIn_dropWhile (ps : List (List Char)) :
    stepsIn (ps.dropWhile isTrivial) = stepsIn ps := by
  induction ps with
  | nil => rfl
  | cons p ps ih =>
    rw [List.dropWhile_cons]
    split
    · next h => rw [ih, stepsIn_cons_of_trivial h]
    · rfl

private theorem stepsIn_trimPieces (ps : List (List Char)) :
    stepsIn (trimPieces ps) = stepsIn ps := by
  have hreverse : ∀ qs, stepsIn qs.reverse = (stepsIn qs).reverse := fun qs => by
    rw [stepsIn, List.filter_reverse, List.map_reverse]
    rfl
  rw [trimPieces, hreverse, stepsIn_dropWhile, hreverse, List.reverse_reverse]

/-- Dropping pieces drops as many components. -/
theorem stepsIn_dropPieces (n : Nat) (ps : List (List Char)) :
    stepsIn (dropPieces n ps) = (stepsIn ps).drop n := by
  fun_induction dropPieces n ps with
  | case1 ps => rfl
  | case2 n => rfl
  | case3 n p ps h ih => rw [ih, stepsIn_cons_of_trivial h]
  | case4 n p ps h ih =>
    rw [ih, stepsIn_cons_of_not_trivial (Bool.eq_false_iff.2 h), List.drop_succ_cons]

/-- A piece stays in front unless it is trivial and nothing stays behind it. -/
theorem trimPieces_cons (p : List Char) (ps : List (List Char)) :
    trimPieces (p :: ps) =
      if trimPieces ps = [] ∧ isTrivial p = true then [] else p :: trimPieces ps := by
  rw [trimPieces, List.reverse_cons, List.dropWhile_append]
  by_cases hempty : (ps.reverse.dropWhile isTrivial).isEmpty = true
  · have hnil : trimPieces ps = [] := by rw [trimPieces, List.isEmpty_iff.1 hempty]; rfl
    rw [if_pos hempty, hnil]
    cases h : isTrivial p <;> simp [h]
  · have hne : trimPieces ps ≠ [] := by
      simpa [trimPieces, List.isEmpty_iff] using hempty
    rw [if_neg hempty, if_neg fun h => hne h.1, List.reverse_append]
    rfl

/-! ### Pieces put together -/

private theorem stepsOf_joinPieces {ps : List (List Char)} (h : ∀ p ∈ ps, '/' ∉ p) :
    stepsOf (joinPieces ps) = stepsIn ps := by
  induction ps with
  | nil => rfl
  | cons p ps ih =>
    obtain ⟨hp, hps⟩ := List.forall_mem_cons.1 h
    have hpiece : stepsOf p = stepsIn [p] := by
      rw [stepsOf, pieces, Text.splitAt_eq_singleton hp]
      rfl
    cases ps with
    | nil => rw [← hpiece, joinPieces, List.intercalate_singleton]
    | cons q ps =>
      rw [joinPieces, List.intercalate_cons_cons, List.append_assoc, List.singleton_append,
        stepsOf_append_slash, hpiece]
      exact (congrArg (stepsIn [p] ++ ·) (ih hps)).trans (stepsIn_append [p] (q :: ps)).symm

/-- Pieces that begin with a component have no beginning of their own. -/
theorem componentsOf_joinPieces {ps : List (List Char)} (h : ∀ p ∈ ps, '/' ∉ p)
    (hhead : ∀ p ∈ ps.head?, isTrivial p = false) :
    componentsOf (joinPieces ps) = stepsIn ps := by
  cases ps with
  | nil => rfl
  | cons p ps =>
    obtain ⟨hp, hps⟩ := List.forall_mem_cons.1 h
    have htrivial : isTrivial p = false := hhead p rfl
    have hne : p ≠ [] := fun hnil => by simp [hnil, isTrivial] at htrivial
    have hpiece : componentsOf p = [componentOf p] := by
      have hstep := componentsOf_text (isStep_componentOf hp htrivial)
      rwa [toList_text_componentOf] at hstep
    rw [stepsIn_cons_of_not_trivial htrivial]
    cases ps with
    | nil => rw [joinPieces, List.intercalate_singleton, hpiece]; rfl
    | cons q ps =>
      rw [joinPieces, List.intercalate_cons_cons, List.append_assoc, List.singleton_append,
        componentsOf_append_slash hne, hpiece, List.singleton_append]
      exact congrArg (componentOf p :: ·) (stepsOf_joinPieces hps)

/-- The pieces of a text make up the text. -/
theorem joinPieces_pieces (s : List Char) : joinPieces (pieces s) = s := by
  induction s with
  | nil => rfl
  | cons c s ih =>
    rw [pieces] at ih ⊢
    rw [Text.splitAt]
    obtain ⟨p, ps, hsplit⟩ := List.exists_cons_of_ne_nil (Text.splitAt_ne_nil '/' s)
    rw [hsplit] at ih ⊢
    split
    · next hc =>
      rw [joinPieces, List.intercalate_cons_cons, hc]
      exact congrArg ('/' :: ·) ih
    · cases ps with
      | nil => exact congrArg (c :: ·) ih
      | cons q ps =>
        rw [joinPieces, List.intercalate_cons_cons] at ih ⊢
        exact congrArg (c :: ·) ih

/-- Trimming leaves a component in front where it is. -/
theorem head?_trimPieces {ps : List (List Char)} (h : ∀ p ∈ ps.head?, isTrivial p = false) :
    ∀ p ∈ (trimPieces ps).head?, isTrivial p = false := by
  cases ps with
  | nil => exact fun p hp => nomatch hp
  | cons q ps =>
    have hq : isTrivial q = false := h q rfl
    rw [trimPieces_cons, if_neg fun hcond => by simp [hq] at hcond]
    exact h

private theorem mem_of_mem_trimPieces {p : List Char} {ps : List (List Char)}
    (h : p ∈ trimPieces ps) :
    p ∈ ps :=
  List.mem_reverse.1 ((List.dropWhile_sublist _).subset (List.mem_reverse.1 h))

private theorem mem_of_mem_dropPieces {p : List Char} {n : Nat} {ps : List (List Char)}
    (h : p ∈ dropPieces n ps) : p ∈ ps := by
  fun_induction dropPieces n ps with
  | case1 ps => exact h
  | case2 n => exact h
  | case3 n q ps _ ih => exact List.mem_cons_of_mem _ (ih h)
  | case4 n q ps _ ih => exact List.mem_cons_of_mem _ (ih h)

/-! ### Below a directory -/

/-- The first piece of a path without a beginning is a component. -/
private theorem head?_pieces_of_splitHead {s : List Char} (h : splitHead s = (.none, s))
    (hs : s ≠ []) : ∀ p ∈ (pieces s).head?, isTrivial p = false := by
  have hjoin := joinPieces_pieces s
  obtain ⟨p, ps, hpieces⟩ := List.exists_cons_of_ne_nil (Text.splitAt_ne_nil '/' s)
  rw [pieces, hpieces] at hjoin ⊢
  rintro _ ⟨⟩
  refine Bool.eq_false_iff.2 fun htrivial => ?_
  simp only [isTrivial, Bool.or_eq_true, decide_eq_true_eq] at htrivial
  subst hjoin
  cases ps with
  | nil => rcases htrivial with rfl | rfl <;> simp_all [joinPieces, splitHead]
  | cons q ps =>
    rw [joinPieces, List.intercalate_cons_cons] at h
    rcases htrivial with rfl | rfl <;> simp [splitHead] at h

/-- The text after no components is the whole text, without trivial pieces at its end. -/
theorem componentsOf_afterComponents_zero (s : List Char) :
    componentsOf (afterComponents 0 s) = componentsOf s := by
  have hslash : ∀ body, ∀ p ∈ trimPieces (pieces body), '/' ∉ p := fun body p hp =>
    Text.not_mem_of_mem_splitAt (mem_of_mem_trimPieces hp)
  have hsteps : ∀ body, stepsOf (joinPieces (trimPieces (pieces body))) = stepsOf body :=
    fun body => by rw [stepsOf_joinPieces (hslash body), stepsIn_trimPieces]; rfl
  change componentsOf ((splitHead s).1.text ++ joinPieces (trimPieces (pieces (splitHead s).2))) =
    (splitHead s).1.components ++ stepsOf (splitHead s).2
  fun_cases splitHead s with
  | case1 s => exact congrArg ([.root] ++ ·) (hsteps s)
  | case2 => rfl
  -- Behind a leading dot the pieces begin with the empty one in front of the slash.
  | case3 s =>
    have hbody := hsteps ('/' :: s)
    change componentsOf ('.' :: joinPieces (trimPieces ([] :: pieces s))) =
      [.current] ++ stepsOf ('/' :: s)
    change stepsOf (joinPieces (trimPieces ([] :: pieces s))) = _ at hbody
    rw [← hbody, trimPieces_cons]
    split
    · rfl
    · next hne =>
      obtain ⟨q, qs, htrim⟩ := List.exists_cons_of_ne_nil fun hnil => hne ⟨hnil, rfl⟩
      rw [htrim, joinPieces, List.intercalate_cons_cons]
      rfl
  | case4 _ hroot hdot hcurrent =>
    have hnone : splitHead s = (.none, s) := by rw [splitHead] <;> assumption
    by_cases hs : s = []
    · rw [hs]
      rfl
    · have hhead : ∀ p ∈ (trimPieces (pieces s)).head?, isTrivial p = false :=
        head?_trimPieces (head?_pieces_of_splitHead hnone hs)
      have hjoin := componentsOf_joinPieces (hslash s) hhead
      rw [stepsIn_trimPieces] at hjoin
      exact hjoin

/-- What is left behind some components has the others. -/
theorem componentsOf_afterComponents (n : Nat) (s : List Char) :
    componentsOf (afterComponents n s) = (componentsOf s).drop n := by
  cases n with
  | zero => exact componentsOf_afterComponents_zero s
  | succ n =>
    have hslash : ∀ p ∈ pieces (splitHead s).2, '/' ∉ p := fun p => Text.not_mem_of_mem_splitAt
    have hhead : ∀ ps : List (List Char), ∀ p ∈ (ps.dropWhile isTrivial).head?,
        isTrivial p = false := fun ps p hp => by
      have hnot := List.head?_dropWhile_not isTrivial ps
      rw [Option.mem_def.1 hp] at hnot
      exact Bool.eq_false_iff.2 fun htrue => by simp [htrue] at hnot
    change componentsOf (joinPieces (trimPieces ((dropPieces
      (n + 1 - (splitHead s).1.components.length) (pieces (splitHead s).2)).dropWhile
        isTrivial))) = _
    rw [componentsOf_joinPieces (fun p hp => hslash p (mem_of_mem_dropPieces
        ((List.dropWhile_sublist _).subset (mem_of_mem_trimPieces hp))))
      (head?_trimPieces (hhead _)), stepsIn_trimPieces, stepsIn_dropWhile, stepsIn_dropPieces,
      componentsOf_eq]
    cases (splitHead s).1 <;> rfl

/-- The rest of a path below a directory has the components that follow the directory's. -/
theorem components_below? {p directory rest : Path} (h : p.below? directory = some rest) :
    rest.components = p.components.drop directory.components.length := by
  rw [below?] at h
  split at h
  · cases h
    rw [components, String.toList_ofList, componentsOf_afterComponents]
    rfl
  · cases h

end ComponentAudit.Path
