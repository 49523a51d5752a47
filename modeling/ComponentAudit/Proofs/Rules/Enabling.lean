import ComponentAudit.Proofs.Rules.Origin

/-!
# Requested families

A request is a list of names. A name that is a rule set of the catalog stands for the families which
the set lists, even if a family has the same name, and any other name stands for the family that it
is. So a request only selects families: what the engine says is what the whole table of rules says
(`tableIssues`), less the issues of the families that are not enabled (`evaluateWith_eq_filter`).
The rules of the table do not look at the request, and the issues of a rule carry its name.

Whether all families can be requested at once depends on the catalog: a rule set with the name of a
family hides it, and then no request may bring it back. In the catalog without its rule sets every
family stands for itself, and its rules find the same (`tableIssues_everyFamily`).
-/

namespace ComponentAudit

/-- The requested name stands for the family: it is a rule set that lists the family, or no rule set
and the family itself. -/
def Catalog.StandsFor (catalog : Catalog) (name family : String) : Prop :=
  (∃ families, catalog.access.ruleSets.get? name = some families ∧ family ∈ families) ∨
    (catalog.access.ruleSets.get? name = none ∧ name = family)

/-- The catalog without rule sets, in which a name stands for the family that it is. -/
def Catalog.withoutRuleSets (catalog : Catalog) : Catalog :=
  { catalog with access := { catalog.access with ruleSets := {} } }

/-- The families that are enabled are those of the table that a requested name stands for. -/
theorem mem_enabledFamilies_iff {catalog : Catalog} {requested : List String}
    {rules : List AccessRule} {family : String} :
    family ∈ enabledFamilies catalog requested rules ↔
      family ∈ rules.map AccessRule.id ∧ ∃ name ∈ requested, catalog.StandsFor name family := by
  have hknown : (rules.any fun r => r.id = family) = true ↔ family ∈ rules.map AccessRule.id := by
    simp
  rw [enabledFamilies, List.mem_flatMap, ← exists_and_left]
  refine exists_congr fun name => ?_
  rw [and_left_comm]
  refine and_congr_right fun _ => ?_
  rw [← hknown, Catalog.StandsFor]
  cases catalog.access.ruleSets.get? name with
  | some families => simp [and_comm]
  | none =>
    by_cases hname : name = family
    · subst hname
      simp
    · simp [hname, Ne.symm hname]

/-- Parts that are told by their members are left out before or after the list is made. -/
private theorem flatMap_filter_eq {α β : Type} {l : List α} {f : α → List β} {p : α → Bool}
    {q : β → Bool} (h : ∀ a ∈ l, ∀ b ∈ f a, q b = p a) :
    (l.filter p).flatMap f = (l.flatMap f).filter q := by
  induction l with
  | nil => rfl
  | cons a l ih =>
    obtain ⟨ha, hl⟩ := List.forall_mem_cons.1 h
    rw [List.flatMap_cons, List.filter_append, ← ih hl]
    cases hp : p a with
    | true =>
      rw [List.filter_cons_of_pos hp, List.flatMap_cons,
        List.filter_eq_self.2 fun b hb => (ha b hb).trans hp]
    | false =>
      have hnone : (f a).filter q = [] :=
        List.filter_eq_nil_iff.2 fun b hb => by rw [ha b hb, hp]; exact Bool.false_ne_true
      rw [List.filter_cons_of_neg (by simp [hp]), hnone, List.nil_append]

private theorem mem_enabledFamilies_withoutRuleSets {catalog : Catalog} {rules : List AccessRule}
    {family : String} (h : family ∈ rules.map AccessRule.id) :
    family ∈ enabledFamilies catalog.withoutRuleSets (rules.map AccessRule.id) rules :=
  mem_enabledFamilies_iff.2 ⟨h, family, h, .inr ⟨rfl, rfl⟩⟩

namespace AccessEngine

variable {e : AccessEngine}

/-- The rules that run are those of the enabled families, in the order of the table. -/
theorem map_id_enabledRules (e : AccessEngine) : e.enabledRules.map AccessRule.id =
    (e.rules.map AccessRule.id).filter
      (enabledFamilies e.catalog e.requested e.rules).contains := by
  rw [enabledRules, List.filter_map]
  rfl

/-- A family is enabled exactly when it is there and some requested name stands for it. -/
theorem mem_map_id_enabledRules_iff {family : String} :
    family ∈ e.enabledRules.map AccessRule.id ↔ family ∈ e.rules.map AccessRule.id ∧
      ∃ name ∈ e.requested, e.catalog.StandsFor name family := by
  rw [map_id_enabledRules, List.mem_filter, List.contains_iff_mem, mem_enabledFamilies_iff,
    ← and_assoc, and_self]

/-- What all rules of the table say about a usage, whichever are enabled. -/
def tableIssues (e : AccessEngine) (labels : LabelIndex) (u : Usage) : List Issue :=
  match e.catalog.get? u.componentName with
  | none => []
  | some spec => e.rules.flatMap fun rule =>
      (rule.check ⟨e.catalog, u, spec, labels, e.proximity⟩).map (rule.issue u)

/-- The issues of a usage are those of the enabled families among what the table says. -/
theorem evaluateWith_eq_filter (e : AccessEngine) (labels : LabelIndex) (u : Usage) :
    e.evaluateWith labels u =
      (e.tableIssues labels u).filter (·.rule ∈ e.enabledRules.map AccessRule.id) := by
  rw [evaluateWith, tableIssues]
  cases e.catalog.get? u.componentName with
  | none => rfl
  | some spec =>
    refine flatMap_filter_eq fun rule hrule i hi => ?_
    obtain ⟨f, -, rfl⟩ := List.mem_map.1 hi
    -- The issue carries the name of its rule.
    have hname : (rule.issue u f).rule = rule.id := rfl
    simp only [hname, map_id_enabledRules, List.mem_filter, List.mem_map_of_mem hrule, true_and,
      Bool.decide_eq_true]

/-- The table says the same whatever is requested, and all of it is said when all is enabled. -/
theorem evaluateWith_eq_tableIssues
    (h : ∀ family ∈ e.rules.map AccessRule.id, family ∈ e.enabledRules.map AccessRule.id)
    (labels : LabelIndex) (u : Usage) : e.evaluateWith labels u = e.tableIssues labels u := by
  rw [evaluateWith_eq_filter, List.filter_eq_self]
  intro i hi
  rw [tableIssues] at hi
  split at hi
  · cases hi
  · obtain ⟨rule, hrule, hi⟩ := List.mem_flatMap.1 hi
    obtain ⟨f, -, rfl⟩ := List.mem_map.1 hi
    exact decide_eq_true (h _ (List.mem_map_of_mem hrule))

/-- What a file is told is what the table says of its usages, less what is not enabled. -/
theorem evaluateFile_eq_map_filter (e : AccessEngine) (usages : List Usage) :
    e.evaluateFile usages = (usages.map (e.tableIssues (.ofUsages e.catalog usages))).map
      (·.filter (·.rule ∈ e.enabledRules.map AccessRule.id)) := by
  rw [List.map_map]
  exact List.map_congr_left fun u _ => evaluateWith_eq_filter e _ u

/-- With all families enabled a file gets the issues of the whole table of rules. -/
theorem evaluateFile_eq_map_tableIssues
    (h : ∀ family ∈ e.rules.map AccessRule.id, family ∈ e.enabledRules.map AccessRule.id)
    (usages : List Usage) :
    e.evaluateFile usages = usages.map (e.tableIssues (.ofUsages e.catalog usages)) :=
  List.map_congr_left fun u _ => evaluateWith_eq_tableIssues h _ u

/-- Only the names that stand for a family of the table count in a request. -/
theorem enabledRules_congr {requested : List String}
    (h : ∀ name, ∀ family ∈ e.rules.map AccessRule.id, e.catalog.StandsFor name family →
      (name ∈ requested ↔ name ∈ e.requested)) :
    ({ e with requested } : AccessEngine).enabledRules = e.enabledRules := by
  unfold enabledRules
  refine List.filter_congr fun rule hrule => ?_
  have hid : rule.id ∈ e.rules.map AccessRule.id := List.mem_map_of_mem hrule
  rw [Bool.eq_iff_iff, List.contains_iff_mem, List.contains_iff_mem, mem_enabledFamilies_iff,
    mem_enabledFamilies_iff]
  exact and_congr_right fun _ => exists_congr fun name =>
    and_congr_left fun hstands => h name rule.id hid hstands

/-! ### The builtin families -/

/-- No builtin rule looks at the rule sets. -/
theorem check_withoutRuleSets {rule : AccessRule} (hrule : rule ∈ AccessRule.builtin)
    (catalog : Catalog) (u : Usage) (spec : ComponentSpec) (labels : LabelIndex) (proximity : Nat) :
    rule.check ⟨catalog.withoutRuleSets, u, spec, labels, proximity⟩ =
      rule.check ⟨catalog, u, spec, labels, proximity⟩ := by
  simp only [AccessRule.builtin, List.mem_cons, List.not_mem_nil, or_false] at hrule
  rcases hrule with rfl | rfl | rfl | rfl | rfl <;> rfl

/-- The engine that runs all builtin families, whatever the rule sets of the catalog are. -/
def everyFamily (catalog : Catalog) (proximity : Nat) : AccessEngine where
  catalog := catalog.withoutRuleSets
  requested := AccessRule.builtin.map AccessRule.id
  proximity

/-- All builtin families are enabled. -/
theorem enabledRules_everyFamily (catalog : Catalog) (proximity : Nat) :
    (everyFamily catalog proximity).enabledRules = AccessRule.builtin :=
  List.filter_eq_self.2 fun _ hrule => List.contains_iff_mem.2
    (mem_enabledFamilies_withoutRuleSets (List.mem_map_of_mem hrule))

private theorem tableIssues_everyFamily (catalog : Catalog) (requested : List String)
    (proximity : Nat) (labels : LabelIndex) (u : Usage) :
    (everyFamily catalog proximity).tableIssues labels u =
      ({ catalog, requested, proximity } : AccessEngine).tableIssues labels u := by
  change (match catalog.get? u.componentName with | none => _ | some spec => _) = _
  rw [tableIssues]
  cases catalog.get? u.componentName with
  | none => rfl
  | some spec =>
    refine List.flatMap_congr fun rule hrule => ?_
    exact congrArg _ (check_withoutRuleSets hrule catalog u spec labels proximity)

/-- **A request only selects families.** With the builtin rules, the families that run are those
of the table that a requested name stands for, in the order of the table. The issues of each usage
are those that all families together report, less the issues of families that do not run: this
compares with the engine that runs them all in the catalog without rule sets, and with any request
that enables them all in the catalog itself. So two requests come to the same when they have the
names in common that stand for a family; order, repetitions and unknown names do not matter. -/
theorem evaluateFile_of_request (catalog : Catalog) (proximity : Nat) (requested : List String)
    (usages : List Usage) :
    let engine (requested : List String) : AccessEngine := { catalog, requested, proximity }
    let families := (engine requested).enabledRules.map AccessRule.id
    let table := AccessRule.builtin.map AccessRule.id
    let selected (all : List (List Issue)) := all.map (·.filter (·.rule ∈ families))
    (∀ family, family ∈ families ↔
        family ∈ table ∧ ∃ name ∈ requested, catalog.StandsFor name family) ∧
      families.Sublist table ∧
      (everyFamily catalog proximity).enabledRules = AccessRule.builtin ∧
      (engine requested).evaluateFile usages =
        selected ((everyFamily catalog proximity).evaluateFile usages) ∧
      (∀ all, (∀ family ∈ table, family ∈ (engine all).enabledRules.map AccessRule.id) →
        (engine requested).evaluateFile usages = selected ((engine all).evaluateFile usages)) ∧
      ∀ requested', (∀ name, ∀ family ∈ table, catalog.StandsFor name family →
          (name ∈ requested' ↔ name ∈ requested)) →
        (engine requested').enabledRules = (engine requested).enabledRules ∧
          (engine requested').evaluateFile usages = (engine requested).evaluateFile usages := by
  intro engine families table selected
  refine ⟨fun _ => mem_map_id_enabledRules_iff, ?_, enabledRules_everyFamily catalog proximity, ?_,
    fun all hall => ?_, fun requested' hsame => ?_⟩
  · have hsublist : (engine requested).enabledRules.Sublist AccessRule.builtin :=
      List.filter_sublist
    exact hsublist.map AccessRule.id
  · have hall : ∀ family ∈ table,
        family ∈ (everyFamily catalog proximity).enabledRules.map AccessRule.id := by
      rw [enabledRules_everyFamily]
      exact fun _ h => h
    rw [evaluateFile_eq_map_filter, evaluateFile_eq_map_tableIssues hall]
    refine congrArg selected (List.map_congr_left fun u _ => ?_)
    exact (tableIssues_everyFamily catalog requested proximity _ u).symm
  · rw [evaluateFile_eq_map_filter, evaluateFile_eq_map_tableIssues (e := engine all) hall]
    rfl
  · have hrules : (engine requested').enabledRules = (engine requested).enabledRules :=
      enabledRules_congr (e := engine requested) hsame
    refine ⟨hrules, List.map_congr_left fun u _ => ?_⟩
    rw [evaluateWith, evaluateWith, hrules]

/-- A catalog with two rule sets: one has the name of a family and hides it, the other lists all. -/
def hidingCatalog : Catalog where
  name := "media"
  marker := "va-"
  version := "v1"
  components := .ofList
    [("va-photo", { name := "va-photo", access := { interactive := true, image := true } })]
  access := { ruleSets := .ofList [
    ("keyboard-inaccessible", ["missing-alt-text", "contrast"]),
    ("wcag", AccessRule.builtin.map AccessRule.id)] }

/-- The name of the hidden family enables another one, and `contrast` enables none. -/
theorem evaluateFile_of_request_hidden :
    let engine (requested : List String) : AccessEngine :=
      { catalog := hidingCatalog, requested, proximity := 3 }
    let photo : Usage :=
      { componentName := "va-photo", tag := "va-photo", filePath := "a.html"
        lineNumber := 1, column := 1 }
    "missing-alt-text" ∈ (engine ["keyboard-inaccessible"]).enabledRules.map AccessRule.id ∧
      (engine ["keyboard-inaccessible"]).evaluateFile [photo] =
        ((engine ["wcag"]).evaluateFile [photo]).map (·.filter (·.rule ∈
          (engine ["keyboard-inaccessible"]).enabledRules.map AccessRule.id)) ∧
      (engine ["contrast", "keyboard-inaccessible", "keyboard-inaccessible"]).evaluateFile [photo] =
        (engine ["keyboard-inaccessible"]).evaluateFile [photo] := by
  intro engine photo
  obtain ⟨hfamilies, -, -, -, hselected, hsame⟩ :=
    evaluateFile_of_request hidingCatalog 3 ["keyboard-inaccessible"] [photo]
  refine ⟨(hfamilies _).2 ⟨by decide, _, List.mem_singleton.2 rfl, .inl ⟨_, rfl, by decide⟩⟩,
    hselected ["wcag"] (by decide +kernel), (hsame _ fun name family hfamily hstands => ?_).2⟩
  have hname : name ≠ "contrast" := by
    rintro rfl
    rcases hstands with ⟨families, hset, -⟩ | ⟨-, rfl⟩
    · have hnone : hidingCatalog.access.ruleSets.get? "contrast" = none := by decide +kernel
      rw [hnone] at hset
      cases hset
    · revert hfamily
      decide
  simp [hname]

end AccessEngine

end ComponentAudit
