import ComponentAudit.Proofs.Rules.Standing
import Mathlib.Data.List.Forall2

/-!
# Verdicts on unknown values

A source file often leaves open what the value of a prop is. A judgement must hold whatever the
value turns out to be.

`Usage.Resolves u u'` says that `u'` is what `u` may turn out to be: the same invocation with the
same props, where values that `u` leaves open may have become anything. That every builtin rule
stands along this relation is shown rule by rule, and carried from the rules to the engines.

Most rules only ask which props are there, and resolving a value changes no answer to that
(`Usage.Resolves.hasProp`). Values are read in three ways: against the allowed values of a prop and
for exclusive pairs, where only literals are judged; for marks of decorative images, where only an
explicit `false` counts against a usage; and for empty names, where only a literal text counts.

The main statement is `judgements_of_unknown_value_stand`.
-/

namespace ComponentAudit

/-! ### Unknown values -/

/-- A value that the source does not tell: only a literal is known. -/
def PropValue.isUnknown : PropValue → Bool
  | .literal _ => false
  | .reference _ => true
  | .unresolved => true

/-- The usage with the given value for a prop. -/
def Usage.withValue (u : Usage) (key : String) (value : PropValue) : Usage :=
  { u with props := u.props.insert key value }

/-- The second usage is what the first may turn out to be: it has the same props, and another value
only where the value is unknown. -/
structure Usage.Resolves (u u' : Usage) : Prop where
  componentName : u'.componentName = u.componentName
  start : u'.start = u.start
  parent : u'.parent = u.parent
  spread : u'.spread = u.spread
  prop : ∀ name, u'.prop? name = u.prop? name ∨
    (u.prop? name).any PropValue.isUnknown ∧ (u'.prop? name).isSome

/-! ### Resolving one value -/

/-- A search through two tables that differ in the value under one name finds the same entry of
both, or in both the entry of that name. -/
private theorem find?_insertEntry {β : Type} (p : String × β → Bool) (k : String) (v w : β)
    (hp : p (k, v) = p (k, w)) (l : List (String × β)) :
    (NameTable.insertEntry k v l).find? p = (NameTable.insertEntry k w l).find? p ∨
      (NameTable.insertEntry k v l).find? p = some (k, v) ∧
        (NameTable.insertEntry k w l).find? p = some (k, w) := by
  have hhere : ∀ rest : List (String × β),
      ((k, v) :: rest).find? p = ((k, w) :: rest).find? p ∨
        ((k, v) :: rest).find? p = some (k, v) ∧ ((k, w) :: rest).find? p = some (k, w) := by
    intro rest
    rw [List.find?_cons, List.find?_cons, hp]
    cases p (k, w) with
    | true => exact .inr ⟨rfl, rfl⟩
    | false => exact .inl rfl
  induction l with
  | nil => exact hhere []
  | cons e rest ih =>
    simp only [NameTable.insertEntry]
    split
    · exact hhere _
    · split
      · exact hhere _
      · rw [List.find?_cons, List.find?_cons]
        cases p e with
        | true => exact .inl rfl
        | false => exact ih

/-- A usage with an unknown value may turn out to be the one with any other value instead. -/
theorem Usage.resolves_withValue (u : Usage) (k : String) {unknown : PropValue}
    (h : unknown.isUnknown = true) (v : PropValue) :
    (u.withValue k unknown).Resolves (u.withValue k v) where
  componentName := rfl
  start := rfl
  parent := rfl
  spread := rfl
  prop name := by
    rcases find?_insertEntry (fun e => decide (propKey e.1 = propKey name)) k unknown v rfl
      u.props.entries with hsame | ⟨hunknown, hv⟩
    · exact .inl (congrArg (Option.map Prod.snd) hsame.symm)
    · have hu : (u.withValue k unknown).prop? name = some unknown :=
        congrArg (Option.map Prod.snd) hunknown
      have hv : (u.withValue k v).prop? name = some v := congrArg (Option.map Prod.snd) hv
      exact .inr (by rw [hu, hv]; exact ⟨h, rfl⟩)

theorem Usage.Resolves.refl (u : Usage) : u.Resolves u :=
  ⟨rfl, rfl, rfl, rfl, fun _ => .inl rfl⟩

/-- Resolving a value of one usage of a file resolves the usages of the file one by one. -/
theorem resolves_modify (k : String) {unknown : PropValue} (h : unknown.isUnknown = true)
    (v : PropValue) (usages : List Usage) :
    ∀ i : Nat, List.Forall₂ Usage.Resolves (usages.modify i (·.withValue k unknown))
      (usages.modify i (·.withValue k v)) := by
  have hrest : ∀ rest : List Usage, List.Forall₂ Usage.Resolves rest rest := fun rest =>
    List.forall₂_same.2 fun u _ => Usage.Resolves.refl u
  induction usages with
  | nil => intro i; cases i <;> exact .nil
  | cons u rest ih =>
    intro i
    cases i with
    | zero => exact .cons (u.resolves_withValue k h v) (hrest rest)
    | succ i => exact .cons (.refl u) (ih i)

/-! ### What resolving leaves as it is -/

section Resolves

variable {u u' : Usage}

/-- Resolving values changes no answer to which props are there. -/
theorem Usage.Resolves.hasProp (h : u.Resolves u') : u'.hasProp = u.hasProp := by
  funext name
  rcases h.prop name with heq | ⟨hu, hu'⟩
  · exact congrArg Option.isSome heq
  · have : (u.prop? name).isSome := by
      cases hp : u.prop? name with
      | none => simp [hp] at hu
      | some v => rfl
    rw [Usage.hasProp, Usage.hasProp, this, hu']

private theorem Usage.isSome_firstProp? (u : Usage) (names : List String) :
    (u.firstProp? names).isSome = names.any u.hasProp := by
  rw [Usage.firstProp?, Bool.eq_iff_iff, List.findSome?_isSome_iff, List.any_eq_true]
  simp only [Option.isSome_map, Usage.hasProp]

private theorem Usage.Resolves.isSome_firstProp? (h : u.Resolves u') (names : List String) :
    (u'.firstProp? names).isSome = (u.firstProp? names).isSome := by
  rw [Usage.isSome_firstProp?, Usage.isSome_firstProp?, h.hasProp]

theorem Usage.Resolves.present (h : u.Resolves u') : u'.present = u.present := by
  funext names
  rw [Usage.present, Usage.present, h.hasProp]

/-- What is known of a value before it is resolved still holds afterwards. -/
theorem Usage.Resolves.prop?_eq_literal (h : u.Resolves u') {name : String} {l : Literal}
    (hl : u.prop? name = some (.literal l)) : u'.prop? name = some (.literal l) := by
  rcases h.prop name with heq | ⟨hu, _⟩
  · rw [heq, hl]
  · simp [hl, PropValue.isUnknown] at hu

theorem Usage.Resolves.keeps (h : u.Resolves u') : u.Keeps u' :=
  ⟨h.componentName, h.start, h.prop?_eq_literal⟩

end Resolves

/-! ### Design rules -/

namespace DesignRule

private theorem missingRequiredProp_standsAlong :
    missingRequiredProp.StandsAlong Usage.Resolves := by
  rintro catalog (_ | spec) u u' h
  · exact List.nil_sublist _
  · have hissue : missingProp u' = missingProp u := by
      funext prop
      rw [missingProp, missingProp, h.spread, h.componentName]
    have hsame : missingRequiredProp.check ⟨catalog, u', some spec⟩ =
        missingRequiredProp.check ⟨catalog, u, some spec⟩ := by
      simp only [missingRequiredProp, h.hasProp, hissue]
    rw [hsame]
    exact List.filter_sublist

private theorem deprecatedProp_standsAlong : deprecatedProp.StandsAlong Usage.Resolves := by
  rintro catalog (_ | spec) u u' h
  · exact List.nil_sublist _
  · have hsame : deprecatedProp.check ⟨catalog, u', some spec⟩ =
        deprecatedProp.check ⟨catalog, u, some spec⟩ := by
      simp only [deprecatedProp, h.hasProp, deprecatedPropIssue_eq h.keeps]
    rw [hsame]
    exact List.filter_sublist

/-- No builtin rule judges a value that it does not know. -/
theorem standsAlong_of_mem_builtin {rule : DesignRule} (h : rule ∈ builtin) :
    rule.StandsAlong Usage.Resolves := by
  simp only [builtin, List.mem_cons, List.not_mem_nil, or_false] at h
  rcases h with rfl | rfl | rfl | rfl | rfl | rfl
  · exact unknownComponent_standsAlong.mono Usage.Resolves.keeps
  · exact deprecatedComponent_standsAlong.mono Usage.Resolves.keeps
  · exact missingRequiredProp_standsAlong
  · exact deprecatedProp_standsAlong
  · exact invalidEnumValue_standsAlong.mono Usage.Resolves.keeps
  · exact forbiddenPropCombination_standsAlong.mono Usage.Resolves.keeps

end DesignRule

/-- **Design rules.** No judgement is lost when an unknown value is resolved. -/
theorem DesignEngine.judgements_sublist (e : DesignEngine) {u u' : Usage}
    (hrules : ∀ rule ∈ e.rules, rule.StandsAlong Usage.Resolves) (h : u.Resolves u') :
    ((e.evaluate u).filter Issue.isJudgement).Sublist (e.evaluate u') :=
  e.judgements_sublist_of_standsAlong hrules h h.keeps

/-! ### Accessibility rules -/

/-- The context of a usage labels it whatever its values are. -/
theorem Usage.Resolves.labels {u u' : Usage} (h : u.Resolves u') (index : LabelIndex)
    (proximity : Nat) : index.labels u' proximity = index.labels u proximity := by
  have hline : u'.lineNumber = u.lineNumber := congrArg Prod.fst h.start
  rw [LabelIndex.labels, LabelIndex.labels, h.parent, h.start, hline]

namespace AccessRule

private theorem missingAccessibleName_standsAlong :
    missingAccessibleName.StandsAlong Usage.Resolves := by
  intro catalog spec labels proximity u u' h
  have hnames : AccessView.nameProps ⟨catalog, u', spec, labels, proximity⟩ =
      AccessView.nameProps ⟨catalog, u, spec, labels, proximity⟩ := rfl
  have hlabelled : AccessView.labelledByContext ⟨catalog, u', spec, labels, proximity⟩ =
      AccessView.labelledByContext ⟨catalog, u, spec, labels, proximity⟩ :=
    h.labels labels proximity
  simp only [missingAccessibleName, hnames, hlabelled, h.spread, h.componentName,
    h.isSome_firstProp?]
  exact List.Sublist.refl _

/-- A usage that nothing marks as decorative is marked by nothing when its values are resolved: a
mark with an unknown value counts for the usage. -/
theorem any_isEnabled_of_resolves {u u' : Usage} (h : u.Resolves u') {marks : List String}
    (hmarks : (marks.any fun p => (u.prop? p).any PropValue.isEnabled) = false) :
    (marks.any fun p => (u'.prop? p).any PropValue.isEnabled) = false := by
  rw [List.any_eq_false] at hmarks ⊢
  intro p hp
  rcases h.prop p with heq | ⟨hu, _⟩
  · rw [heq]
    exact hmarks p hp
  · refine absurd ?_ (hmarks p hp)
    cases hv : u.prop? p with
    | none => simp [hv] at hu
    | some v => cases v <;> simp_all [PropValue.isUnknown, PropValue.isEnabled]

private theorem missingAltText_standsAlong : missingAltText.StandsAlong Usage.Resolves := by
  intro catalog spec labels proximity u u' h
  simp only [missingAltText]
  rw [h.spread, h.componentName, h.isSome_firstProp?]
  split
  · exact List.nil_sublist _
  · cases hmarks : spec.access.decorativeProps.any fun p =>
        (u.prop? p).any PropValue.isEnabled with
    | true => exact List.nil_sublist _
    | false => rw [any_isEnabled_of_resolves h hmarks]

private theorem colorOnlyState_standsAlong : colorOnlyState.StandsAlong Usage.Resolves := by
  intro catalog spec labels proximity u u' h
  have hsame : colorOnlyState.check ⟨catalog, u', spec, labels, proximity⟩ =
      colorOnlyState.check ⟨catalog, u, spec, labels, proximity⟩ := by
    simp only [colorOnlyState, h.present, h.spread, h.componentName]
  rw [hsame]

private theorem keyboardInaccessible_standsAlong :
    keyboardInaccessible.StandsAlong Usage.Resolves := by
  intro catalog spec labels proximity u u' h
  have hsame : keyboardInaccessible.check ⟨catalog, u', spec, labels, proximity⟩ =
      keyboardInaccessible.check ⟨catalog, u, spec, labels, proximity⟩ := by
    simp only [keyboardInaccessible, h.present, h.componentName]
  rw [hsame]

/-- No builtin family judges a value that it does not know. -/
theorem standsAlong_of_mem_builtin {rule : AccessRule} (h : rule ∈ builtin) :
    rule.StandsAlong Usage.Resolves := by
  simp only [builtin, List.mem_cons, List.not_mem_nil, or_false] at h
  rcases h with rfl | rfl | rfl | rfl | rfl
  · exact missingAccessibleName_standsAlong
  · exact missingAltText_standsAlong
  · exact colorOnlyState_standsAlong
  · exact keyboardInaccessible_standsAlong
  · exact emptyAccessibleName_standsAlong.mono Usage.Resolves.keeps

end AccessRule

/-- **Accessibility rules.** No issue is lost when an unknown value is resolved. -/
theorem AccessEngine.sublist_evaluateWith (e : AccessEngine) {u u' : Usage} (labels : LabelIndex)
    (hrules : ∀ rule ∈ e.rules, rule.StandsAlong Usage.Resolves) (h : u.Resolves u') :
    (e.evaluateWith labels u).Sublist (e.evaluateWith labels u') :=
  e.sublist_evaluateWith_of_standsAlong labels hrules h h.keeps

/-! ### Files -/

/-- Whether a label is provided does not depend on the value. -/
theorem Usage.Resolves.providesLabel {u u' : Usage} (h : u.Resolves u') (catalog : Catalog) :
    providesLabel catalog u' = providesLabel catalog u := by
  simp only [ComponentAudit.providesLabel, h.componentName, h.isSome_firstProp?]

/-- Resolving values leaves the label providers of a file as they are. -/
theorem LabelIndex.ofUsages_eq_of_resolves (catalog : Catalog) {usages usages' : List Usage}
    (h : List.Forall₂ Usage.Resolves usages usages') :
    LabelIndex.ofUsages catalog usages' = LabelIndex.ofUsages catalog usages :=
  LabelIndex.ofUsages_eq_of_forall₂ h catalog (·.providesLabel catalog) (·.start)

/-- The usages of a file with the given value for a prop of the usage at the index `i`. -/
def withValueAt (usages : List Usage) (i : Nat) (key : String) (value : PropValue) : List Usage :=
  usages.modify i (·.withValue key value)

/-- **What is held against an unknown value holds of every value.** Take the usages of a file, with
an unknown value for one prop of one of them. Every judgement of the design rules and of the
requested accessibility rules on any usage of the file is reported again, in the same order and as
many times, when that prop has any other value `v` instead. -/
theorem judgements_of_unknown_value_stand (catalog : Catalog) (requested : List String)
    (proximity : Nat) (usages : List Usage) (i : Nat) (key : String) (unknown v : PropValue)
    (hunknown : unknown.isUnknown = true) :
    List.Forall₂ (fun found found' => (found.filter Issue.isJudgement).Sublist found')
        ((withValueAt usages i key unknown).map (DesignEngine.evaluate { catalog }))
        ((withValueAt usages i key v).map (DesignEngine.evaluate { catalog })) ∧
      List.Forall₂ (fun found found' => (found.filter Issue.isJudgement).Sublist found')
        (AccessEngine.evaluateFile { catalog, requested, proximity }
          (withValueAt usages i key unknown))
        (AccessEngine.evaluateFile { catalog, requested, proximity }
          (withValueAt usages i key v)) := by
  have hresolves : List.Forall₂ Usage.Resolves (withValueAt usages i key unknown)
      (withValueAt usages i key v) := resolves_modify key hunknown v usages i
  refine ⟨?_, ?_⟩
  · refine List.forall₂_map_left_iff.2 (List.forall₂_map_right_iff.2 (hresolves.imp ?_))
    intro u u' h
    exact DesignEngine.judgements_sublist _
      (fun _ hrule => DesignRule.standsAlong_of_mem_builtin hrule) h
  · rw [AccessEngine.evaluateFile, AccessEngine.evaluateFile,
      LabelIndex.ofUsages_eq_of_resolves catalog hresolves]
    refine List.forall₂_map_left_iff.2 (List.forall₂_map_right_iff.2 (hresolves.imp ?_))
    intro u u' h
    exact List.filter_sublist.trans (AccessEngine.sublist_evaluateWith _ _
      (fun _ hrule => AccessRule.standsAlong_of_mem_builtin hrule) h)

/-- A catalog with an alert that needs a headline and shows its status by color. -/
def alertCatalog : Catalog where
  name := "alerts"
  marker := "va-"
  version := "1"
  components := .ofList [("va-alert",
    { name := "va-alert", required := ["headline"], enums := .ofList [("status", ["info"])]
      access := { stateProps := ["status"], textProps := ["headline"] } })]
  access := {}

/-- An alert without headline whose status is known only at run time, and the same alert when the
status turns out to be none of the allowed ones. -/
theorem judgements_of_unknown_value_stand_alert :
    let alert : Usage := { componentName := "va-alert", tag := "VaAlert", filePath := "a.jsx"
                           lineNumber := 1, column := 1 }
    let rulesAt (v : PropValue) :=
      (((withValueAt [alert] 0 "status" v).map
          (DesignEngine.evaluate { catalog := alertCatalog })).map (·.map (·.rule)),
       (AccessEngine.evaluateFile { catalog := alertCatalog, requested := ["color-only-state"] }
        (withValueAt [alert] 0 "status" v)).map (·.map (·.rule)))
    (PropValue.reference "status").isUnknown = true ∧
      rulesAt (.reference "status") = ([["missing-required-prop"]], [["color-only-state"]]) ∧
      rulesAt (.string "red") =
        ([["missing-required-prop", "invalid-enum-value"]], [["color-only-state"]]) ∧
      List.Forall₂ (fun found found' => (found.filter Issue.isJudgement).Sublist found')
        ((withValueAt [alert] 0 "status" (.reference "status")).map
          (DesignEngine.evaluate { catalog := alertCatalog }))
        ((withValueAt [alert] 0 "status" (.string "red")).map
          (DesignEngine.evaluate { catalog := alertCatalog })) :=
  ⟨rfl, by decide +kernel, by decide +kernel,
    (judgements_of_unknown_value_stand alertCatalog ["color-only-state"] 3 _ 0 "status"
      (.reference "status") (.string "red") rfl).1⟩

end ComponentAudit
