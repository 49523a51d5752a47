import ComponentAudit.Catalog.Builtin
import ComponentAudit.Proofs.Rules.Standing
import Mathlib.Data.List.Forall2
import Mathlib.Data.List.Nodup

/-!
# The spelling of props

A prop is the same whether it is written `aria-label`, `ariaLabel` or `ARIA_LABEL`: names with one
`propKey` stand for one prop. When a usage writes each of its props once, its verdicts do not depend
on the spelling.

The argument is in two steps. A usage that is spelled otherwise has the same props
(`Usage.Respelled.alike`), although they may be listed in another order, since the order follows the
names as written. And what a rule says of a usage depends on no more than `Usage.Alike` compares: no
rule looks at the list of props itself or quotes a name as written. The main statement is
`verdicts_of_respelled`.
-/

namespace ComponentAudit

/-! ### Usages that are spelled otherwise -/

/-- The second usage is the first with its props spelled otherwise, and neither writes a prop
twice. -/
structure Usage.Respelled (u u' : Usage) : Prop where
  /-- Nothing but the names of the props is different. -/
  rest : u' = { u with props := u'.props }
  renamed : ∃ rename : String → String,
    (∀ k ∈ u.props.keys, propKey (rename k) = propKey k) ∧
      u'.props.entries.Perm (u.props.entries.map fun e => (rename e.1, e.2))
  distinct : (u.props.keys.map propKey).Nodup
  distinct' : (u'.props.keys.map propKey).Nodup

/-- The usages do not differ in anything that a rule looks at. -/
structure Usage.Alike (u u' : Usage) : Prop where
  componentName : u'.componentName = u.componentName
  start : u'.start = u.start
  parent : u'.parent = u.parent
  spread : u'.spread = u.spread
  prop : u'.prop? = u.prop?

/-- A prop that is written once has the value that is written. -/
theorem Usage.prop?_eq_some_iff {u : Usage} (hdistinct : (u.props.keys.map propKey).Nodup)
    {name : String} {v : PropValue} :
    u.prop? name = some v ↔ ∃ k, (k, v) ∈ u.props.entries ∧ propKey k = propKey name := by
  constructor
  · exact Usage.exists_entry_of_prop?
  · rintro ⟨k, hk, hkey⟩
    have hfound : (u.props.entries.find? fun e => propKey e.1 = propKey name).isSome = true :=
      List.find?_isSome.2 ⟨(k, v), hk, decide_eq_true hkey⟩
    obtain ⟨e, he⟩ := Option.isSome_iff_exists.1 hfound
    have hkey' := List.find?_some he
    have hdistinct : (u.props.entries.map fun e => propKey e.1).Nodup := by
      simpa [NameTable.keys, Function.comp_def] using hdistinct
    obtain rfl : e = (k, v) := List.inj_on_of_nodup_map hdistinct
      (List.mem_of_find?_eq_some he) hk ((of_decide_eq_true hkey').trans hkey.symm)
    exact congrArg (Option.map Prod.snd) he

/-- A usage with its props respelled is like the one it was. -/
theorem Usage.Respelled.alike {u u' : Usage} (h : u.Respelled u') : u.Alike u' := by
  obtain ⟨hrest, ⟨rename, hkeys, hperm⟩, hdistinct, hdistinct'⟩ := h
  have hprop : u'.prop? = u.prop? := by
    funext name
    refine Option.ext fun v => ?_
    rw [Usage.prop?_eq_some_iff hdistinct', Usage.prop?_eq_some_iff hdistinct]
    constructor
    · rintro ⟨k', hk', hname⟩
      obtain ⟨⟨k, w⟩, he, ⟨⟩⟩ := List.mem_map.1 (hperm.mem_iff.1 hk')
      exact ⟨k, he, (hkeys k (List.mem_map_of_mem he)).symm.trans hname⟩
    · rintro ⟨k, hk, hname⟩
      refine ⟨rename k, hperm.mem_iff.2 (List.mem_map.2 ⟨(k, v), hk, rfl⟩), ?_⟩
      exact (hkeys k (List.mem_map_of_mem hk)).trans hname
  rw [hrest]
  exact ⟨rfl, rfl, rfl, rfl, hrest ▸ hprop⟩

namespace Usage.Alike

variable {u u' : Usage} (h : u.Alike u')
include h

theorem hasProp : u'.hasProp = u.hasProp := by
  funext name
  rw [Usage.hasProp, Usage.hasProp, h.prop]

theorem firstProp? : u'.firstProp? = u.firstProp? := by
  funext names
  rw [Usage.firstProp?, Usage.firstProp?, h.prop]

theorem present : u'.present = u.present := by
  funext names
  rw [Usage.present, Usage.present, h.hasProp]

theorem keeps : u.Keeps u' := ⟨h.componentName, h.start, fun hl => h.prop ▸ hl⟩

end Usage.Alike

/-! ### Design rules -/

namespace DesignRule

/-- The rule says the same of usages that are alike. -/
def Uniform (rule : DesignRule) : Prop :=
  ∀ (catalog : Catalog) (spec : Option ComponentSpec) (u u' : Usage), u.Alike u' →
    rule.check ⟨catalog, u', spec⟩ = rule.check ⟨catalog, u, spec⟩

private theorem missingProp_of_alike {u u' : Usage} (h : u.Alike u') :
    missingProp u' = missingProp u := by
  funext prop
  rw [missingProp, missingProp, h.spread, h.componentName]

private theorem enumIssue?_of_alike {u u' : Usage} (h : u.Alike u') :
    enumIssue? u' = enumIssue? u := by
  funext prop allowed
  rw [enumIssue?, enumIssue?, h.prop, h.componentName]

private theorem isSet_of_alike {u u' : Usage} (h : u.Alike u') : isSet u' = isSet u := by
  funext prop
  rw [isSet, isSet, h.prop]

/-- Every rule treats alike usages alike. -/
theorem uniform_of_mem_builtin {rule : DesignRule} (hrule : rule ∈ builtin) : rule.Uniform := by
  intro catalog spec u u' h
  simp only [builtin, List.mem_cons, List.not_mem_nil, or_false] at hrule
  rcases hrule with rfl | rfl | rfl | rfl | rfl | rfl
  · simp only [unknownComponent, h.componentName]
  · rfl
  · simp only [missingRequiredProp, h.hasProp, missingProp_of_alike h]
  · simp only [deprecatedProp, h.hasProp, deprecatedPropIssue_eq h.keeps]
  · simp only [invalidEnumValue, enumIssue?_of_alike h]
  · simp only [forbiddenPropCombination, isSet_of_alike h, combinationIssue_eq h.keeps]

end DesignRule

/-- Rules that say the same of usages that are alike make an engine that does. -/
theorem DesignEngine.evaluate_of_alike (e : DesignEngine) (hrules : ∀ rule ∈ e.rules, rule.Uniform)
    {u u' : Usage} (h : u.Alike u') : e.evaluate u' = e.evaluate u := by
  obtain ⟨hline, hcolumn⟩ := Prod.mk.injEq .. ▸ h.start
  simp only [DesignEngine.evaluate, h.componentName, hline, hcolumn]
  refine List.flatMap_congr fun rule hrule => ?_
  rw [hrules rule hrule e.catalog _ u u' h]

/-! ### Accessibility rules -/

/-- Alike usages provide a label or do not. -/
theorem providesLabel_of_alike (catalog : Catalog) {u u' : Usage} (h : u.Alike u') :
    providesLabel catalog u' = providesLabel catalog u := by
  rw [providesLabel, providesLabel, h.componentName, h.firstProp?]

/-- Alike usages are labelled by the same starts. -/
theorem LabelIndex.labels_of_alike (index : LabelIndex) (proximity : Nat) {u u' : Usage}
    (h : u.Alike u') : index.labels u' proximity = index.labels u proximity := by
  obtain ⟨hline, -⟩ := Prod.mk.injEq .. ▸ h.start
  rw [LabelIndex.labels, LabelIndex.labels, h.parent, h.start, hline]

namespace AccessRule

/-- The family finds the same in usages that are alike. -/
def Uniform (rule : AccessRule) : Prop :=
  ∀ (catalog : Catalog) (spec : ComponentSpec) (labels : LabelIndex) (proximity : Nat)
    (u u' : Usage), u.Alike u' → rule.check ⟨catalog, u', spec, labels, proximity⟩ =
      rule.check ⟨catalog, u, spec, labels, proximity⟩

private theorem isBlankProp_of_alike {u u' : Usage} (h : u.Alike u') :
    isBlankProp u' = isBlankProp u := by
  funext prop
  rw [isBlankProp, isBlankProp, h.prop]

/-- Every rule treats alike usages alike. -/
theorem uniform_of_mem_builtin {rule : AccessRule} (hrule : rule ∈ builtin) : rule.Uniform := by
  intro catalog spec labels proximity u u' h
  simp only [builtin, List.mem_cons, List.not_mem_nil, or_false] at hrule
  rcases hrule with rfl | rfl | rfl | rfl | rfl
  · have hnames : AccessView.nameProps ⟨catalog, u', spec, labels, proximity⟩ =
        AccessView.nameProps ⟨catalog, u, spec, labels, proximity⟩ := rfl
    have hlabelled : AccessView.labelledByContext ⟨catalog, u', spec, labels, proximity⟩ =
        AccessView.labelledByContext ⟨catalog, u, spec, labels, proximity⟩ :=
      labels.labels_of_alike proximity h
    simp only [missingAccessibleName, hnames, hlabelled, h.componentName, h.spread, h.firstProp?]
  · simp only [missingAltText, h.componentName, h.spread, h.firstProp?, h.prop]
  · simp only [colorOnlyState, h.componentName, h.spread, h.present]
  · simp only [keyboardInaccessible, h.componentName, h.present]
  · simp only [emptyAccessibleName, AccessView.nameProps, h.componentName, isBlankProp_of_alike h]

end AccessRule

/-- Families that find the same in usages that are alike make an engine that does. -/
theorem AccessEngine.evaluateWith_of_alike (e : AccessEngine)
    (hrules : ∀ rule ∈ e.rules, rule.Uniform) (labels : LabelIndex) {u u' : Usage}
    (h : u.Alike u') : e.evaluateWith labels u' = e.evaluateWith labels u := by
  rw [AccessEngine.evaluateWith, AccessEngine.evaluateWith, h.componentName]
  cases e.catalog.get? u.componentName with
  | none => rfl
  | some spec =>
    refine List.flatMap_congr fun rule hrule => ?_
    have hmem := List.mem_of_mem_filter hrule
    rw [hrules rule hmem e.catalog spec labels e.proximity u u' h,
      AccessRule.issue_eq_of_keeps h.keeps rule]

/-! ### Files -/

/-- **Verdicts do not depend on how props are spelled.** Take the usages of a file, and spell their
props otherwise, such that no usage writes a prop twice, before or after. Then the design rules
report the same issues for each usage, and the requested accessibility rules report the same issues
for the file. -/
theorem verdicts_of_respelled (catalog : Catalog) (requested : List String) (proximity : Nat)
    (usages usages' : List Usage) (h : List.Forall₂ Usage.Respelled usages usages') :
    usages'.map (DesignEngine.evaluate { catalog }) =
        usages.map (DesignEngine.evaluate { catalog }) ∧
      AccessEngine.evaluateFile { catalog, requested, proximity } usages' =
        AccessEngine.evaluateFile { catalog, requested, proximity } usages := by
  have halike : List.Forall₂ Usage.Alike usages usages' := h.imp fun _ _ => Usage.Respelled.alike
  constructor
  · exact map_eq_of_forall₂ halike (DesignEngine.evaluate_of_alike _ fun _ =>
      DesignRule.uniform_of_mem_builtin)
  · rw [AccessEngine.evaluateFile, AccessEngine.evaluateFile,
      LabelIndex.ofUsages_eq_of_forall₂ halike catalog (providesLabel_of_alike catalog) (·.start)]
    exact map_eq_of_forall₂ halike (AccessEngine.evaluateWith_of_alike _ (fun _ =>
      AccessRule.uniform_of_mem_builtin) _)

/-- A catalog of an alert with a status. -/
def statusCatalog : Catalog where
  name := "alerts"
  marker := "va-"
  version := "1"
  components := .ofList [("va-alert", {
    name := "va-alert"
    enums := .ofList [("status", ["info", "error"])]
    access := { stateProps := ["status"], textProps := ["headline"] } })]
  access := Catalog.vocabulary

/-- An alert with a status that is not allowed and a blank name, under the given names of the two
props. -/
def spelledAlert (status name : String) : Usage where
  componentName := "va-alert"
  tag := "VaAlert"
  filePath := "a.jsx"
  lineNumber := 1
  column := 1
  props := .ofList [(status, .literal (.string "urgent")), (name, .literal (.string " "))]

/-- The props of the alert change places in name order when they are spelled otherwise, and the
three issues stay. -/
theorem verdicts_of_respelled_alert :
    let plain := spelledAlert "status" "aria-label"
    let camel := spelledAlert "Status" "ariaLabel"
    let engine : AccessEngine := { catalog := statusCatalog, requested := ["wcag2a", "wcag2aa"] }
    plain.props.keys = ["aria-label", "status"] ∧ camel.props.keys = ["Status", "ariaLabel"] ∧
      (DesignEngine.evaluate { catalog := statusCatalog } plain).map (·.rule) =
        ["invalid-enum-value"] ∧
      (engine.evaluateFile [plain]).map (·.map (·.rule)) =
        [["color-only-state", "empty-accessible-name"]] ∧
      DesignEngine.evaluate { catalog := statusCatalog } camel =
        DesignEngine.evaluate { catalog := statusCatalog } plain ∧
      engine.evaluateFile [camel] = engine.evaluateFile [plain] := by
  have hrespelled : (spelledAlert "status" "aria-label").Respelled
      (spelledAlert "Status" "ariaLabel") := {
    rest := rfl
    renamed := ⟨fun k => if k = "status" then "Status" else "ariaLabel",
      by decide +kernel, by decide +kernel⟩
    distinct := by decide +kernel
    distinct' := by decide +kernel }
  have hverdicts := verdicts_of_respelled statusCatalog ["wcag2a", "wcag2aa"] 3 _ _
    (.cons hrespelled .nil)
  exact ⟨by decide +kernel, by decide +kernel, by decide +kernel, by decide +kernel,
    List.head_eq_of_cons_eq hverdicts.1, hverdicts.2⟩

end ComponentAudit
