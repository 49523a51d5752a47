import ComponentAudit.Rules.Accessibility
import Mathlib.Data.List.Basic
import Mathlib.Data.List.Flatten
import Mathlib.Data.List.Forall2

/-!
# Judgements that stand

A *judgement* is an issue of severity `warning` or `error`; an issue of severity `info` is a remark
and may say that something could not be verified.

What a source file shows of a usage is often only a part of it: values are left open, and a spread
brings in props that are not written. A relation between usages says what a usage may turn out to
be. A rule *stands along* such a relation when each of its judgements of the one usage is a
judgement of the other, and an engine does when all its rules do
(`DesignEngine.judgements_sublist_of_standsAlong`).

Whatever a usage turns out to be, its literals stay what they are. `Usage.Keeps` says no more than
that, and the rules that only judge literals stand along it already. What related usages have in
common, files of related usages have in common as well; of their labels that is
`LabelIndex.ofUsages_eq_of_forall₂`.
-/

namespace ComponentAudit

/-- An issue that holds something against a usage, and is not merely a remark. -/
def Issue.isJudgement (i : Issue) : Bool := i.severity ≠ .info

/-- The second usage is of the same component at the same place, and each literal of the first is
one of the second. -/
structure Usage.Keeps (u u' : Usage) : Prop where
  componentName : u'.componentName = u.componentName
  start : u'.start = u.start
  literal : ∀ {name : String} {l : Literal}, u.prop? name = some (.literal l) →
    u'.prop? name = some (.literal l)

/-- A prop that is present is written at the usage, in some spelling of its name. -/
theorem Usage.exists_entry_of_prop? {u : Usage} {name : String} {v : PropValue}
    (h : u.prop? name = some v) : ∃ k, (k, v) ∈ u.props.entries ∧ propKey k = propKey name := by
  obtain ⟨⟨k, w⟩, he, rfl⟩ := Option.map_eq_some_iff.1 h
  have hkey := List.find?_some he
  exact ⟨k, List.mem_of_find?_eq_some he, of_decide_eq_true hkey⟩

/-! ### Files -/

section Files

variable {R : Usage → Usage → Prop} {usages usages' : List Usage}
  (h : List.Forall₂ R usages usages')
include h

/-- What is the same for related usages is the same throughout a file. -/
theorem map_eq_of_forall₂ {α : Type} {f : Usage → α} (hf : ∀ {u u'}, R u u' → f u' = f u) :
    usages'.map f = usages.map f := by
  induction h with
  | nil => rfl
  | cons hu _ ih => rw [List.map_cons, List.map_cons, hf hu, ih]

private theorem map_filter_eq_of_forall₂ {α : Type} {f : Usage → α} {p : Usage → Bool}
    (hf : ∀ {u u'}, R u u' → f u' = f u) (hp : ∀ {u u'}, R u u' → p u' = p u) :
    (usages'.filter p).map f = (usages.filter p).map f := by
  induction h with
  | nil => rfl
  | cons hu _ ih =>
    rw [List.filter_cons, List.filter_cons, hp hu]
    split
    · rw [List.map_cons, List.map_cons, hf hu, ih]
    · exact ih

/-- Files whose usages provide labels one for one have the same label providers. -/
theorem LabelIndex.ofUsages_eq_of_forall₂ (catalog : Catalog)
    (hprovides : ∀ {u u'}, R u u' → providesLabel catalog u' = providesLabel catalog u)
    (hstart : ∀ {u u'}, R u u' → u'.start = u.start) :
    LabelIndex.ofUsages catalog usages' = LabelIndex.ofUsages catalog usages := by
  rw [LabelIndex.ofUsages, LabelIndex.ofUsages, map_eq_of_forall₂ h hprovides,
    map_filter_eq_of_forall₂ h hstart hprovides]

end Files

/-! ### Design rules -/

/-- Every judgement of the rule on a usage is one on each usage that it is related to. -/
def DesignRule.StandsAlong (R : Usage → Usage → Prop) (rule : DesignRule) : Prop :=
  ∀ (catalog : Catalog) (spec : Option ComponentSpec) (u u' : Usage), R u u' →
    ((rule.check ⟨catalog, u, spec⟩).filter Issue.isJudgement).Sublist
      (rule.check ⟨catalog, u', spec⟩)

namespace DesignRule

theorem StandsAlong.mono {R S : Usage → Usage → Prop} {rule : DesignRule}
    (h : rule.StandsAlong S) (hRS : ∀ {u u'}, R u u' → S u u') : rule.StandsAlong R :=
  fun catalog spec u u' hR => h catalog spec u u' (hRS hR)

theorem unknownComponent_standsAlong : unknownComponent.StandsAlong Usage.Keeps := by
  rintro catalog (_ | spec) u u' h
  · exact List.nil_sublist _
  · exact List.nil_sublist _

theorem deprecatedComponent_standsAlong : deprecatedComponent.StandsAlong Usage.Keeps :=
  fun _ _ _ _ _ => List.filter_sublist

/-- A judgement on the value of a prop is about a literal, which stays what it is. -/
theorem enumIssue?_of_keeps {u u' : Usage} (h : u.Keeps u') {prop : String}
    {allowed : List String} {i : Issue} (hi : enumIssue? u prop allowed = some i)
    (hjudgement : i.isJudgement = true) : enumIssue? u' prop allowed = some i := by
  rw [enumIssue?] at hi
  split at hi
  · next l hl =>
    rw [enumIssue?, h.literal hl, h.componentName]
    exact hi
  · cases hi
    exact Bool.noConfusion hjudgement
  · cases hi
  · cases hi

/-- A partial function gives a part of what another one gives that agrees where it gives
anything. -/
private theorem filterMap_sublist {α β : Type} {f g : α → Option β}
    (h : ∀ a b, f a = some b → g a = some b) (l : List α) :
    (l.filterMap f).Sublist (l.filterMap g) := by
  induction l with
  | nil => exact List.Sublist.slnil
  | cons a l ih =>
    cases hf : f a with
    | none =>
      rw [List.filterMap_cons_none hf]
      exact ih.trans (List.Sublist.filterMap g (List.sublist_cons_self a l))
    | some b =>
      rw [List.filterMap_cons_some hf, List.filterMap_cons_some (h a b hf)]
      exact ih.cons_cons b

theorem invalidEnumValue_standsAlong : invalidEnumValue.StandsAlong Usage.Keeps := by
  rintro catalog (_ | spec) u u' h
  · exact List.nil_sublist _
  · rw [invalidEnumValue, List.filter_filterMap]
    refine filterMap_sublist (fun e i hi => ?_) spec.enums.entries
    obtain ⟨hi, hjudgement⟩ := Option.filter_eq_some_iff.1 hi
    exact enumIssue?_of_keeps h hi hjudgement

/-- A prop that a literal switches on stays on. -/
theorem isSet_of_keeps {u u' : Usage} (h : u.Keeps u') {prop : String}
    (hset : isSet u prop = true) : isSet u' prop = true := by
  rw [isSet] at hset
  cases hp : u.prop? prop with
  | none => simp [hp] at hset
  | some v =>
    cases v with
    | literal l => rwa [isSet, h.literal hp, ← hp]
    | reference path => simp [hp, PropValue.isSetLiteral] at hset
    | unresolved => simp [hp, PropValue.isSetLiteral] at hset

theorem combinationIssue_eq {u u' : Usage} (h : u.Keeps u') :
    combinationIssue u' = combinationIssue u := by
  funext pair
  rw [combinationIssue, combinationIssue, h.componentName]

theorem forbiddenPropCombination_standsAlong :
    forbiddenPropCombination.StandsAlong Usage.Keeps := by
  rintro catalog (_ | spec) u u' h
  · exact List.nil_sublist _
  · have hpairs : (spec.exclusive.filter fun p => isSet u p.1 && isSet u p.2).Sublist
        (spec.exclusive.filter fun p => isSet u' p.1 && isSet u' p.2) := by
      refine List.monotone_filter_right _ fun p hp => ?_
      rw [Bool.and_eq_true] at hp ⊢
      exact hp.imp (isSet_of_keeps h) (isSet_of_keeps h)
    simp only [forbiddenPropCombination, combinationIssue_eq h]
    exact List.filter_sublist.trans (hpairs.map _)

theorem deprecatedPropIssue_eq {u u' : Usage} (h : u.Keeps u') :
    deprecatedPropIssue u' = deprecatedPropIssue u := by
  funext d
  rw [deprecatedPropIssue, deprecatedPropIssue, h.componentName]

end DesignRule

/-- The judgements of an engine stand when those of its rules do. -/
theorem DesignEngine.judgements_sublist_of_standsAlong (e : DesignEngine)
    {R : Usage → Usage → Prop} {u u' : Usage} (hrules : ∀ rule ∈ e.rules, rule.StandsAlong R)
    (h : R u u') (hkeeps : u.Keeps u') :
    ((e.evaluate u).filter Issue.isJudgement).Sublist (e.evaluate u') := by
  obtain ⟨hline, hcolumn⟩ := Prod.mk.injEq .. ▸ hkeeps.start
  rw [DesignEngine.evaluate, DesignEngine.evaluate, List.filter_flatMap]
  refine List.Sublist.flatMap_right _ fun rule hrule => ?_
  -- Locating an issue does not change how severe it is.
  have hlocate : ∀ l : List Issue, (l.map (·.locatedAt u.lineNumber u.column)).filter
      Issue.isJudgement = (l.filter Issue.isJudgement).map (·.locatedAt u.lineNumber u.column) :=
    fun l => List.filter_map
  rw [hlocate, hkeeps.componentName, hline, hcolumn]
  exact (hrules rule hrule e.catalog _ u u' h).map _

/-! ### Accessibility rules -/

/-- Every finding of the rule on a usage is one on each usage that it is related to. -/
def AccessRule.StandsAlong (R : Usage → Usage → Prop) (rule : AccessRule) : Prop :=
  ∀ (catalog : Catalog) (spec : ComponentSpec) (labels : LabelIndex) (proximity : Nat)
    (u u' : Usage), R u u' → (rule.check ⟨catalog, u, spec, labels, proximity⟩).Sublist
      (rule.check ⟨catalog, u', spec, labels, proximity⟩)

namespace AccessRule

theorem StandsAlong.mono {R S : Usage → Usage → Prop} {rule : AccessRule}
    (h : rule.StandsAlong S) (hRS : ∀ {u u'}, R u u' → S u u') : rule.StandsAlong R :=
  fun catalog spec labels proximity u u' hR => h catalog spec labels proximity u u' (hRS hR)

/-- A text of blanks only is a literal, which stays what it is. -/
theorem isBlankProp_of_keeps {u u' : Usage} (h : u.Keeps u') {prop : String}
    (hblank : isBlankProp u prop = true) : isBlankProp u' prop = true := by
  rw [isBlankProp] at hblank
  split at hblank
  · next s hs => rwa [isBlankProp, h.literal hs]
  · cases hblank

theorem emptyAccessibleName_standsAlong : emptyAccessibleName.StandsAlong Usage.Keeps := by
  intro catalog spec labels proximity u u' h
  simp only [emptyAccessibleName, AccessView.nameProps, h.componentName]
  exact (List.monotone_filter_right _ fun _ => isBlankProp_of_keeps h).map _

/-- A finding is the same issue on both usages. -/
theorem issue_eq_of_keeps {u u' : Usage} (h : u.Keeps u') (rule : AccessRule) :
    rule.issue u' = rule.issue u := by
  obtain ⟨hline, hcolumn⟩ := Prod.mk.injEq .. ▸ h.start
  funext f
  rw [AccessRule.issue, AccessRule.issue, hline, hcolumn]

end AccessRule

/-- The issues of an engine stand when the findings of its rules do. -/
theorem AccessEngine.sublist_evaluateWith_of_standsAlong (e : AccessEngine)
    {R : Usage → Usage → Prop} {u u' : Usage} (labels : LabelIndex)
    (hrules : ∀ rule ∈ e.rules, rule.StandsAlong R) (h : R u u') (hkeeps : u.Keeps u') :
    (e.evaluateWith labels u).Sublist (e.evaluateWith labels u') := by
  rw [AccessEngine.evaluateWith, AccessEngine.evaluateWith, hkeeps.componentName]
  cases e.catalog.get? u.componentName with
  | none => exact List.Sublist.slnil
  | some spec =>
    refine List.Sublist.flatMap_right _ fun rule hrule => ?_
    rw [AccessRule.issue_eq_of_keeps hkeeps rule]
    have hmem := List.mem_of_mem_filter hrule
    exact (hrules rule hmem e.catalog spec labels e.proximity u u' h).map _

end ComponentAudit
