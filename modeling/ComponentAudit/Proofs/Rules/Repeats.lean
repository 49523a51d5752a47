import ComponentAudit.Catalog.Builtin
import ComponentAudit.Proofs.Catalog.Resolution
import ComponentAudit.Proofs.Rules.Origin

/-!
# Violations that are reported twice

A catalog lists names: required props, deprecated props, pairs of props that exclude each other,
props that name a component. When no list repeats an entry (`Catalog.Unrepeated`), nothing that the
rules say about a usage should be said twice.

* Issues of different rules differ, since the name of an issue leads back to its rule.
* Issues of one design rule differ: they are about different props, or about pairs of which the
  message names both (`DesignRule.nodup_violations`).
* The accessibility families make one finding at most, but for `emptyAccessibleName`. It goes
  through the props that name the component and then through those that name every component, and
  finds a blank prop of both lists twice (`AccessRule.nodup_emptyAccessibleName_iff`).

So a violation is reported twice exactly if a blank prop is in both lists
(`violations_nodup_iff`). The builtin catalog has such a prop.
-/

namespace ComponentAudit

/-! ### Lists without repetition -/

/-- The lists of the entry repeat nothing. The names of `enums` are different in any case. -/
@[mk_iff]
structure ComponentSpec.Unrepeated (spec : ComponentSpec) : Prop where
  required : spec.required.Nodup
  deprecatedProps : (spec.deprecatedProps.map DeprecatedProp.prop).Nodup
  exclusive : spec.exclusive.Nodup
  nameProps : spec.access.nameProps.Nodup

instance (spec : ComponentSpec) : Decidable spec.Unrepeated :=
  decidable_of_iff _ spec.unrepeated_iff.symm

/-- Each list of the catalog, taken on its own, repeats nothing. -/
structure Catalog.Unrepeated (catalog : Catalog) : Prop where
  components : ∀ spec ∈ catalog.componentList, spec.Unrepeated
  nameProps : catalog.access.nameProps.Nodup

private theorem Catalog.Unrepeated.of_get? {catalog : Catalog} (h : catalog.Unrepeated)
    {name : String} {spec : ComponentSpec} (hspec : catalog.get? name = some spec) :
    spec.Unrepeated :=
  h.components spec (List.mem_map_of_mem (mem_of_lookup_eq_some hspec))

/-- The builtin catalog repeats nothing, in any version. -/
theorem Catalog.unrepeated_of_resolve_builtin {requested : String} {catalog : Catalog}
    (h : Catalog.builtin.resolve requested = .ok catalog) : catalog.Unrepeated := by
  have hdeclared : ∀ v ∈ Catalog.builtin.versions.entries, ∀ spec ∈ v.2.components,
      spec.Unrepeated := by
    decide +kernel
  obtain ⟨haccess, hcomponents⟩ := CatalogFile.declares_of_resolve h
  refine ⟨fun spec hspec => ?_, by rw [haccess]; decide⟩
  obtain ⟨v, hv, hmem⟩ := hcomponents spec hspec
  exact hdeclared v hv spec hmem

/-- Lists whose members tell which of them they are in have nothing in common. -/
theorem nodup_flatMap_iff {α β γ : Type} {l : List α} {f : α → List β} {name : α → γ}
    (label : β → γ) (hnames : (l.map name).Nodup) (hlabel : ∀ a ∈ l, ∀ b ∈ f a, label b = name a) :
    (l.flatMap f).Nodup ↔ ∀ a ∈ l, (f a).Nodup := by
  rw [List.nodup_flatMap, and_iff_left_iff_imp]
  intro _
  refine (List.pairwise_map.1 hnames).imp_of_mem fun {a b} ha hb hne c hca hcb => hne ?_
  rw [← hlabel a ha c hca, hlabel b hb c hcb]

/-! ### Design rules -/

/-- Issues about different props are different violations. -/
theorem nodup_violations_of_prop {issues : List Issue} (h : (issues.map Issue.prop).Nodup) :
    (issues.map Issue.violation).Nodup :=
  List.Nodup.of_map (·.2.1) (by simpa [Issue.violation, Function.comp_def] using h)

namespace DesignRule

/-- A missing prop is reported once. -/
theorem nodup_violations_missingRequiredProp {spec : ComponentSpec} (h : spec.required.Nodup)
    (catalog : Catalog) (u : Usage) :
    ((missingRequiredProp.check ⟨catalog, u, some spec⟩).map Issue.violation).Nodup := by
  refine nodup_violations_of_prop ?_
  have hprop : Issue.prop ∘ missingProp u = some := rfl
  rw [missingRequiredProp, List.map_map, hprop]
  exact (h.filter _).map fun _ _ => Option.some.inj

/-- A deprecated prop is reported once. -/
theorem nodup_violations_deprecatedProp {spec : ComponentSpec}
    (h : (spec.deprecatedProps.map DeprecatedProp.prop).Nodup) (catalog : Catalog) (u : Usage) :
    ((deprecatedProp.check ⟨catalog, u, some spec⟩).map Issue.violation).Nodup := by
  refine nodup_violations_of_prop ?_
  have hprop : Issue.prop ∘ deprecatedPropIssue u = some ∘ DeprecatedProp.prop := rfl
  rw [deprecatedProp, List.map_map, hprop, ← List.map_map]
  exact (h.sublist (List.filter_sublist.map _)).map fun _ _ => Option.some.inj

/-- A value outside its choices is reported once. -/
theorem nodup_violations_invalidEnumValue (spec : ComponentSpec) (catalog : Catalog) (u : Usage) :
    ((invalidEnumValue.check ⟨catalog, u, some spec⟩).map Issue.violation).Nodup := by
  refine nodup_violations_of_prop (List.pairwise_map.2 (List.pairwise_filterMap.2 ?_))
  refine spec.enums.ascending.imp fun {a b} hlt i hi j hj hprop => ?_
  rw [(of_enumIssue?_eq_some hi).1, (of_enumIssue?_eq_some hj).1] at hprop
  exact Std.lt_irrefl (Option.some.inj hprop ▸ hlt)

/-- The message names the first prop of a pair, and the issue is about the second. -/
theorem violation_combinationIssue_injective (u : Usage) :
    Function.Injective (Issue.violation ∘ combinationIssue u) := by
  rintro ⟨first, second⟩ ⟨first', second'⟩ h
  obtain rfl : second = second' := Option.some.inj (congrArg (·.2.1) h)
  have hmessage := congrArg (·.2.2) h
  simp only [Function.comp_apply, Issue.violation, combinationIssue, Issue.withProp, Issue.design,
    String.append_left_inj, String.append_right_inj] at hmessage
  exact Prod.ext hmessage rfl

/-- A forbidden combination is reported once. -/
theorem nodup_violations_forbiddenPropCombination {spec : ComponentSpec}
    (h : spec.exclusive.Nodup) (catalog : Catalog) (u : Usage) :
    ((forbiddenPropCombination.check ⟨catalog, u, some spec⟩).map Issue.violation).Nodup := by
  rw [forbiddenPropCombination, List.map_map]
  exact (h.filter _).map (violation_combinationIssue_injective u)

/-- No builtin rule says anything twice. -/
theorem nodup_violations {rule : DesignRule} (hrule : rule ∈ builtin) {v : DesignView}
    (h : ∀ spec, v.spec = some spec → spec.Unrepeated) :
    ((rule.check v).map Issue.violation).Nodup := by
  obtain ⟨catalog, u, spec⟩ := v
  simp only [builtin, List.mem_cons, List.not_mem_nil, or_false] at hrule
  rcases spec with _ | spec
  · rcases hrule with rfl | rfl | rfl | rfl | rfl | rfl
    · exact List.nodup_singleton _
    all_goals exact List.nodup_nil
  · have hspec := h spec rfl
    rcases hrule with rfl | rfl | rfl | rfl | rfl | rfl
    · exact List.nodup_nil
    · simp only [deprecatedComponent]
      split
      · exact List.nodup_singleton _
      · exact List.nodup_nil
    · exact nodup_violations_missingRequiredProp hspec.required catalog u
    · exact nodup_violations_deprecatedProp hspec.deprecatedProps catalog u
    · exact nodup_violations_invalidEnumValue spec catalog u
    · exact nodup_violations_forbiddenPropCombination hspec.exclusive catalog u

end DesignRule

/-- What the design rules say about a usage, rule by rule. -/
theorem DesignEngine.map_violation_evaluate (e : DesignEngine) (u : Usage) :
    (e.evaluate u).map Issue.violation = e.rules.flatMap fun rule =>
      (rule.check ⟨e.catalog, u, e.catalog.get? u.componentName⟩).map Issue.violation := by
  simp only [DesignEngine.evaluate, List.map_flatMap, List.map_map]
  rfl

/-- The design rules say nothing twice. -/
theorem DesignEngine.nodup_violations {catalog : Catalog} (h : catalog.Unrepeated) (u : Usage) :
    ((DesignEngine.evaluate { catalog } u).map Issue.violation).Nodup := by
  rw [DesignEngine.map_violation_evaluate]
  refine (nodup_flatMap_iff (ruleFamily ∘ Prod.fst) DesignRule.nodup_map_id_builtin
    fun rule hrule violation hviolation => ?_).2 fun rule hrule => ?_
  · obtain ⟨i, hi, rfl⟩ := List.mem_map.1 hviolation
    exact DesignRule.ruleFamily_of_mem_check hrule hi
  · exact DesignRule.nodup_violations hrule fun _ hspec => h.of_get? hspec

/-! ### Accessibility rules -/

namespace AccessRule

/-- The props that name the component and those that name every component are searched one after
the other: a name is found twice if it is in both lists and blank. -/
theorem nodup_emptyAccessibleName_iff {v : AccessView} (hspec : v.spec.access.nameProps.Nodup)
    (hcatalog : v.catalog.access.nameProps.Nodup) :
    (emptyAccessibleName.check v).Nodup ↔
      ∀ p ∈ v.spec.access.nameProps, p ∈ v.catalog.access.nameProps →
        isBlankProp v.usage p = false := by
  have hprop : Function.Injective fun p : String => ({
      message := s!"'{v.usage.componentName}' sets '{p}' to an empty name"
      prop := some p } : Finding) :=
    fun p q h => Option.some.inj (congrArg Finding.prop h)
  rw [emptyAccessibleName, List.nodup_map_iff hprop, AccessView.nameProps, List.filter_append,
    List.nodup_append']
  constructor
  · rintro ⟨-, -, hdisjoint⟩ p hp hp'
    refine Bool.eq_false_iff.2 fun hblank => ?_
    exact hdisjoint (List.mem_filter.2 ⟨hp, hblank⟩) (List.mem_filter.2 ⟨hp', hblank⟩)
  · intro hblank
    refine ⟨hspec.filter _, hcatalog.filter _, fun p hp hp' => ?_⟩
    obtain ⟨hp, hset⟩ := List.mem_filter.1 hp
    exact absurd hset (Bool.eq_false_iff.1 (hblank p hp (List.mem_of_mem_filter hp')))

/-- The other families make one finding at most. -/
theorem nodup_check {rule : AccessRule} (hrule : rule ∈ builtin)
    (hid : rule.id ≠ "empty-accessible-name") (v : AccessView) : (rule.check v).Nodup := by
  have hunless : ∀ {c : Bool} {l : List Finding}, l.Nodup → (if c then [] else l).Nodup := by
    rintro (_ | _) l hl
    · exact hl
    · exact List.nodup_nil
  simp only [builtin, List.mem_cons, List.not_mem_nil, or_false] at hrule
  rcases hrule with rfl | rfl | rfl | rfl | rfl
  · exact hunless (hunless (List.nodup_singleton _))
  · exact hunless (hunless (List.nodup_singleton _))
  · simp only [colorOnlyState]
    split
    · exact List.nodup_nil
    · exact hunless (List.nodup_singleton _)
  · simp only [keyboardInaccessible]
    split
    · exact List.nodup_nil
    · exact hunless (List.nodup_singleton _)
  · exact absurd rfl hid

end AccessRule

namespace AccessEngine

variable {e : AccessEngine} {labels : LabelIndex} {u : Usage}

/-- The violations of a usage repeat nothing exactly if no enabled family finds anything twice. -/
theorem nodup_violations_iff {spec : ComponentSpec} (hids : (e.rules.map AccessRule.id).Nodup)
    (hspec : e.catalog.get? u.componentName = some spec) :
    ((e.evaluateWith labels u).map Issue.violation).Nodup ↔ ∀ rule ∈ e.enabledRules,
      (rule.check ⟨e.catalog, u, spec, labels, e.proximity⟩).Nodup := by
  have henabled : (e.enabledRules.map AccessRule.id).Nodup :=
    hids.sublist (List.filter_sublist.map _)
  simp only [evaluateWith, hspec, List.map_flatMap, List.map_map]
  rw [nodup_flatMap_iff Prod.fst henabled fun rule _ violation hviolation => ?_]
  · simp only [List.nodup_map_iff (AccessRule.violation_issue_injective _ u)]
  · obtain ⟨f, -, rfl⟩ := List.mem_map.1 hviolation
    rfl

/-- A builtin family is enabled if and only if its name is. -/
theorem mem_enabledRules_builtin_iff {catalog : Catalog} {requested : List String}
    {proximity : Nat} {rule : AccessRule} (hrule : rule ∈ AccessRule.builtin) :
    rule ∈ enabledRules { catalog, requested, proximity } ↔
      rule.id ∈ enabledFamilies catalog requested AccessRule.builtin := by
  rw [enabledRules, List.mem_filter, List.contains_iff_mem]
  exact and_iff_right hrule

/-- The accessibility rules say nothing twice exactly if no blank prop is both among the props that
name the component and among those that name every component. -/
theorem nodup_violations_builtin_iff {catalog : Catalog} (h : catalog.Unrepeated)
    (requested : List String) (proximity : Nat) (labels : LabelIndex) (u : Usage) :
    ((evaluateWith { catalog, requested, proximity } labels u).map Issue.violation).Nodup ↔
      ∀ spec, catalog.get? u.componentName = some spec →
        "empty-accessible-name" ∈ enabledFamilies catalog requested AccessRule.builtin →
          ∀ p ∈ spec.access.nameProps, p ∈ catalog.access.nameProps →
            AccessRule.isBlankProp u p = false := by
  have hempty : AccessRule.emptyAccessibleName ∈ AccessRule.builtin := by simp [AccessRule.builtin]
  cases hspec : catalog.get? u.componentName with
  | none => simp [evaluateWith, hspec]
  | some spec =>
    have hcheck := AccessRule.nodup_emptyAccessibleName_iff
      (v := ⟨catalog, u, spec, labels, proximity⟩) (h.of_get? hspec).nameProps h.nameProps
    rw [nodup_violations_iff AccessRule.nodup_map_id_builtin hspec]
    constructor
    · rintro hnodup _ ⟨⟩ henabled
      exact hcheck.1 (hnodup _ ((mem_enabledRules_builtin_iff hempty).2 henabled))
    · intro hblank rule hrule
      have hbuiltin : rule ∈ AccessRule.builtin := mem_rules_of_mem_enabledRules hrule
      by_cases hid : rule.id = "empty-accessible-name"
      · obtain rfl : rule = .emptyAccessibleName :=
          List.inj_on_of_nodup_map AccessRule.nodup_map_id_builtin hbuiltin hempty hid
        exact hcheck.2 (hblank spec rfl ((mem_enabledRules_builtin_iff hempty).1 hrule))
      · exact AccessRule.nodup_check hbuiltin hid _

end AccessEngine

/-! ### Both engines -/

/-- A design issue and an accessibility issue have different rules. -/
theorem disjoint_violations (catalog : Catalog) (requested : List String) (proximity : Nat)
    (labels : LabelIndex) (u : Usage) :
    ((DesignEngine.evaluate { catalog } u).map Issue.violation).Disjoint
      ((AccessEngine.evaluateWith { catalog, requested, proximity } labels u).map
        Issue.violation) := by
  have hnames : ∀ name ∈ AccessRule.builtin.map AccessRule.id,
      ruleFamily name ∉ DesignRule.builtin.map DesignRule.id := by decide
  intro violation hdesign haccess
  obtain ⟨i, hi, hsame⟩ := List.mem_map.1 haccess
  obtain ⟨spec, -, rule, hrule, f, -, rfl⟩ := AccessEngine.mem_evaluateWith_iff.1 hi
  rw [DesignEngine.map_violation_evaluate] at hdesign
  obtain ⟨rule', hrule', hviolation⟩ := List.mem_flatMap.1 hdesign
  obtain ⟨j, hj, hsame'⟩ := List.mem_map.1 hviolation
  have hrules : j.rule = rule.id := congrArg Prod.fst (hsame'.trans hsame.symm)
  refine hnames rule.id (List.mem_map_of_mem (AccessEngine.mem_rules_of_mem_enabledRules hrule)) ?_
  rw [← hrules, DesignRule.ruleFamily_of_mem_check hrule' hj]
  exact List.mem_map_of_mem hrule'

/-- **A violation is reported twice exactly if a blank prop is listed twice as a name.** When each
list of the catalog, taken on its own, repeats nothing, the design rules and the requested
accessibility rules together report no violation of a usage twice, unless the family
`empty-accessible-name` is enabled and a prop of the usage is blank that is both among those that
name its component and among those that name every component. -/
theorem violations_nodup_iff (catalog : Catalog) (requested : List String) (proximity : Nat)
    (siblings : List Usage) (u : Usage) (h : catalog.Unrepeated) :
    ((DesignEngine.evaluate { catalog } u ++
        AccessEngine.evaluate { catalog, requested, proximity } u siblings).map
          Issue.violation).Nodup ↔
      ∀ spec, catalog.get? u.componentName = some spec →
        "empty-accessible-name" ∈ enabledFamilies catalog requested AccessRule.builtin →
          ∀ p ∈ spec.access.nameProps, p ∈ catalog.access.nameProps →
            AccessRule.isBlankProp u p = false := by
  rw [List.map_append, List.nodup_append', AccessEngine.evaluate,
    AccessEngine.nodup_violations_builtin_iff h]
  constructor
  · rintro ⟨-, hblank, -⟩
    exact hblank
  · intro hblank
    exact ⟨DesignEngine.nodup_violations h u, hblank, disjoint_violations ..⟩

/-- A page navigation that is named by the given text. -/
def namedPagination (name : String) : Usage where
  componentName := "va-pagination"
  tag := "va-pagination"
  filePath := "a.jsx"
  lineNumber := 1
  column := 1
  props := .ofList [("aria-label", .literal (.string name))]

/-- The latest version of the builtin catalog has a page navigation that is named by a prop that
names every component. -/
theorem Catalog.exists_resolve_builtin : ∃ catalog spec,
    Catalog.builtin.resolve "latest" = .ok catalog ∧
      catalog.get? "va-pagination" = some spec ∧ "aria-label" ∈ spec.access.nameProps := by
  have hrun : ((Catalog.builtin.resolve "latest").toOption.bind (·.get? "va-pagination")).any
      (·.access.nameProps.contains "aria-label") = true := by decide +kernel
  cases hcatalog : Catalog.builtin.resolve "latest" with
  | error e => simp [hcatalog, Except.toOption] at hrun
  | ok catalog =>
    rw [hcatalog] at hrun
    obtain ⟨spec, hspec, hname⟩ := Option.any_eq_true _ _ |>.1 hrun
    exact ⟨catalog, spec, rfl, hspec, List.contains_iff_mem.1 hname⟩

/-- The navigation lacks both its required props, and each lack is reported once. -/
theorem violations_nodup_iff_named : ∃ catalog : Catalog,
    Catalog.builtin.resolve "latest" = .ok catalog ∧ catalog.Unrepeated ∧
      ((DesignEngine.evaluate { catalog } (namedPagination "Pages") ++
        AccessEngine.evaluate { catalog, requested := ["wcag2aa"] } (namedPagination "Pages")
          []).map Issue.violation).Nodup := by
  obtain ⟨catalog, spec, hcatalog, -, -⟩ := Catalog.exists_resolve_builtin
  have hunrepeated := Catalog.unrepeated_of_resolve_builtin hcatalog
  have hnamed : ∀ p ∈ Catalog.builtin.access.nameProps,
      AccessRule.isBlankProp (namedPagination "Pages") p = false := by decide +kernel
  rw [← (CatalogFile.declares_of_resolve hcatalog).1] at hnamed
  refine ⟨catalog, hcatalog, hunrepeated, ?_⟩
  exact (violations_nodup_iff catalog ["wcag2aa"] 3 [] _ hunrepeated).2
    fun _ _ _ p _ hp => hnamed p hp

/-- The name of the navigation is blank, and that is reported twice. -/
theorem blank_name_reported_twice : ∃ catalog : Catalog,
    Catalog.builtin.resolve "latest" = .ok catalog ∧ catalog.Unrepeated ∧
      ¬ ((DesignEngine.evaluate { catalog } (namedPagination "") ++
        AccessEngine.evaluate { catalog, requested := ["wcag2aa"] } (namedPagination "")
          []).map Issue.violation).Nodup := by
  obtain ⟨catalog, spec, hcatalog, hspec, hname⟩ := Catalog.exists_resolve_builtin
  have hunrepeated := Catalog.unrepeated_of_resolve_builtin hcatalog
  have haccess := (CatalogFile.declares_of_resolve hcatalog).1
  have henabled : "empty-accessible-name" ∈
      enabledFamilies catalog ["wcag2aa"] AccessRule.builtin := by
    rw [enabledFamilies, haccess]
    decide +kernel
  have hshared : "aria-label" ∈ catalog.access.nameProps := by
    rw [haccess]
    decide
  have hblank : AccessRule.isBlankProp (namedPagination "") "aria-label" = true := by
    decide +kernel
  refine ⟨catalog, hcatalog, hunrepeated, fun hnodup => ?_⟩
  rw [List.map_append] at hnodup
  have hset := (AccessEngine.nodup_violations_builtin_iff hunrepeated ["wcag2aa"] 3 _ _).1
    hnodup.of_append_right spec hspec henabled "aria-label" hname hshared
  rw [hblank] at hset
  cases hset

end ComponentAudit
