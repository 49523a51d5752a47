import ComponentAudit.Rules.Accessibility
import Mathlib.Data.List.Nodup

/-!
# Where issues come from

An issue tells which rule reports it and, for the accessibility rules, what the rule finds. The rule
that checks the allowed values of a prop is the only one that reports under two names: a value of
which nothing is known is remarked as `unverified-prop-value`. `ruleFamily` undoes that, so that the
name of an issue leads back to its rule (`DesignRule.ruleFamily_of_mem_check`).

For the accessibility rules an issue is reported if and only if the enabled rule that it names finds
it (`AccessEngine.issue_mem_evaluateWith_iff`).
-/

namespace ComponentAudit

/-- What an issue says: its rule, the prop at fault and the message. -/
def Issue.violation (i : Issue) : String × Option String × String := (i.rule, i.prop, i.message)

/-! ### Design rules -/

/-- The rule that reports issues under the given name. -/
def ruleFamily (name : String) : String :=
  if name = "unverified-prop-value" then "invalid-enum-value" else name

namespace DesignRule

/-- What is reported on the value of a prop names the prop and belongs to its rule. -/
theorem of_enumIssue?_eq_some {u : Usage} {prop : String} {allowed : List String} {i : Issue}
    (h : enumIssue? u prop allowed = some i) :
    i.prop = some prop ∧ ruleFamily i.rule = "invalid-enum-value" := by
  rw [enumIssue?] at h
  split at h
  · split at h
    · cases h
    · cases h
      exact ⟨rfl, rfl⟩
  · cases h
    exact ⟨rfl, rfl⟩
  · cases h
  · cases h

/-- The name of an issue leads back to the rule that reports it. -/
theorem ruleFamily_of_mem_check {rule : DesignRule} (hrule : rule ∈ builtin) {v : DesignView}
    {i : Issue} (hi : i ∈ rule.check v) : ruleFamily i.rule = rule.id := by
  obtain ⟨catalog, u, spec⟩ := v
  simp only [builtin, List.mem_cons, List.not_mem_nil, or_false] at hrule
  rcases spec with _ | spec
  -- Only the first rule has something to say about an unknown component.
  · rcases hrule with rfl | rfl | rfl | rfl | rfl | rfl
    · obtain rfl := List.mem_singleton.1 hi
      rfl
    all_goals exact absurd hi List.not_mem_nil
  · rcases hrule with rfl | rfl | rfl | rfl | rfl | rfl
    · exact absurd hi List.not_mem_nil
    · simp only [deprecatedComponent] at hi
      split at hi
      · obtain rfl := List.mem_singleton.1 hi
        rfl
      · exact absurd hi List.not_mem_nil
    · obtain ⟨prop, -, rfl⟩ := List.mem_map.1 hi
      simp only [missingProp]
      split <;> rfl
    · obtain ⟨d, -, rfl⟩ := List.mem_map.1 hi
      rfl
    · obtain ⟨e, -, he⟩ := List.mem_filterMap.1 hi
      exact (of_enumIssue?_eq_some he).2
    · obtain ⟨pair, -, rfl⟩ := List.mem_map.1 hi
      rfl

/-- No two builtin rules have the same name. -/
theorem nodup_map_id_builtin : (builtin.map DesignRule.id).Nodup := by decide

end DesignRule

/-! ### Accessibility rules -/

namespace AccessRule

/-- No two builtin families have the same name. -/
theorem nodup_map_id_builtin : (builtin.map AccessRule.id).Nodup := by decide

/-- Different findings of a family are different violations. -/
theorem violation_issue_injective (rule : AccessRule) (u : Usage) :
    Function.Injective (Issue.violation ∘ rule.issue u) := by
  rintro ⟨message, prop⟩ ⟨message', prop'⟩ h
  have hprop : prop = prop' := congrArg (·.2.1) h
  have hmessage := congrArg (·.2.2) h
  simp only [Function.comp_apply, Issue.violation, issue, Issue.locatedAt, Issue.accessibility,
    String.append_left_inj] at hmessage
  exact Finding.mk.injEq .. ▸ ⟨hmessage, hprop⟩

end AccessRule

namespace AccessEngine

variable {e : AccessEngine} {labels : LabelIndex} {u : Usage}

/-- What is enabled is among the rules. -/
theorem mem_rules_of_mem_enabledRules {rule : AccessRule} (h : rule ∈ e.enabledRules) :
    rule ∈ e.rules :=
  List.mem_of_mem_filter h

/-- The issues of a usage are the findings of the enabled rules. -/
theorem mem_evaluateWith_iff {i : Issue} : i ∈ e.evaluateWith labels u ↔
    ∃ spec, e.catalog.get? u.componentName = some spec ∧ ∃ rule ∈ e.enabledRules,
      ∃ f ∈ rule.check ⟨e.catalog, u, spec, labels, e.proximity⟩, rule.issue u f = i := by
  rw [evaluateWith]
  cases e.catalog.get? u.componentName with
  | none => simp
  | some spec => simp

/-- An issue is reported if and only if the rule that it names finds it. -/
theorem issue_mem_evaluateWith_iff {spec : ComponentSpec} {rule : AccessRule} {f : Finding}
    (hids : (e.rules.map AccessRule.id).Nodup) (hspec : e.catalog.get? u.componentName = some spec)
    (hrule : rule ∈ e.enabledRules) :
    rule.issue u f ∈ e.evaluateWith labels u ↔
      f ∈ rule.check ⟨e.catalog, u, spec, labels, e.proximity⟩ := by
  rw [mem_evaluateWith_iff]
  constructor
  · rintro ⟨spec', hspec', rule', hrule', f', hf', hissue⟩
    obtain rfl : spec' = spec := Option.some.inj (hspec'.symm.trans hspec)
    have hid : rule'.id = rule.id := congrArg Issue.rule hissue
    obtain rfl : rule' = rule := List.inj_on_of_nodup_map hids
      (mem_rules_of_mem_enabledRules hrule') (mem_rules_of_mem_enabledRules hrule) hid
    rwa [(rule'.violation_issue_injective u).of_comp hissue] at hf'
  · intro hf
    exact ⟨spec, hspec, rule, hrule, f, hf, rfl⟩

end AccessEngine

end ComponentAudit
