import ComponentAudit.CommandLine.Run
import ComponentAudit.Proofs.NameTable
import ComponentAudit.Proofs.Scan.Isolation
import Mathlib.Algebra.GroupWithZero.Nat
import Mathlib.Data.List.Induction

/-!
# Counts of issues

A scan counts its issues in its summary, a report counts them by severity and by rule, and the
command exits by whether one of them is an error. All of these are functions of one list, the issues
of the usages one after the other, and each is brought to a count over that list: `ofIssues_eq` and
`get?_countRules` for the two tables of a report, `issuesFound_eq` for the summary and
`hasErrors_iff` for the exit code.

The main statement is `scan_counts_agree`. Scores and coverage, which are doubles, are left out.
-/

namespace ComponentAudit

/-! ### Severities -/

private theorem foldl_add_eq (issues : List Issue) (c : SeverityCounts) :
    issues.foldl (fun c i => c.add i.severity) c =
      { error := c.error + issues.countP (·.severity = .error)
        warning := c.warning + issues.countP (·.severity = .warning)
        info := c.info + issues.countP (·.severity = .info) } := by
  induction issues generalizing c with
  | nil => rfl
  | cons i issues ih =>
    rw [List.foldl_cons, ih]
    cases h : i.severity <;> simp [SeverityCounts.add, h] <;> omega

/-- Each severity is counted as often as it occurs. -/
theorem SeverityCounts.ofIssues_eq (issues : List Issue) :
    SeverityCounts.ofIssues issues =
      { error := issues.countP (·.severity = .error)
        warning := issues.countP (·.severity = .warning)
        info := issues.countP (·.severity = .info) } := by
  rw [ofIssues, foldl_add_eq]
  simp only [Nat.zero_add]

/-- Every issue has one of the severities. -/
theorem SeverityCounts.sum_ofIssues (issues : List Issue) :
    (ofIssues issues).error + (ofIssues issues).warning + (ofIssues issues).info =
      issues.length := by
  rw [ofIssues_eq]
  induction issues with
  | nil => rfl
  | cons i issues ih =>
    simp only [List.countP_cons, List.length_cons] at ih ⊢
    cases h : i.severity <;> simp <;> omega

/-! ### Rules -/

private theorem countRules_concat (issues : List Issue) (i : Issue) :
    countRules (issues ++ [i]) = (countRules issues).alter i.rule fun n => n.getD 0 + 1 := by
  rw [countRules, List.foldl_append]
  rfl

/-- A rule is counted as often as it occurs, and a rule that does not occur has no count. -/
theorem get?_countRules (issues : List Issue) (rule : String) :
    (countRules issues).get? rule =
      if issues.countP (·.rule = rule) = 0 then none
      else some (issues.countP (·.rule = rule)) := by
  induction issues using List.reverseRecOn with
  | nil => rfl
  | append_singleton issues i ih =>
    rw [countRules_concat, NameTable.get?_alter, List.countP_append, List.countP_singleton, ih]
    by_cases hrule : rule = i.rule
    · have hi : decide (i.rule = rule) = true := decide_eq_true hrule.symm
      rw [if_pos hrule, if_pos hi, if_neg (Nat.succ_ne_zero _)]
      split
      · next hzero => rw [hzero, Option.getD_none]
      · rw [Option.getD_some]
    · have hi : ¬ decide (i.rule = rule) = true := by simpa using Ne.symm hrule
      rw [if_neg hrule, if_neg hi, Nat.add_zero]

/-- A rule is counted with the number of its issues. -/
theorem get?_countRules_eq_some_iff {issues : List Issue} {rule : String} {n : Nat} :
    (countRules issues).get? rule = some n ↔ n = issues.countP (·.rule = rule) ∧ 0 < n := by
  rw [get?_countRules]
  split
  · next hzero => exact iff_of_false (fun h => nomatch h) fun ⟨h, hpos⟩ => by omega
  · next hne =>
    rw [Option.some.injEq]
    exact ⟨fun h => ⟨h.symm, by omega⟩, fun h => h.1.symm⟩

/-- The rules that are counted are those that occur. -/
theorem mem_keys_countRules {issues : List Issue} {rule : String} :
    rule ∈ (countRules issues).keys ↔ ∃ i ∈ issues, i.rule = rule := by
  simp only [NameTable.mem_keys_iff, get?_countRules_eq_some_iff, exists_eq_left,
    List.countP_pos_iff, decide_eq_true_eq]

/-- Every issue is counted under its rule. -/
theorem sum_countRules (issues : List Issue) :
    (countRules issues).values.sum = issues.length := by
  induction issues using List.reverseRecOn with
  | nil => rfl
  | append_singleton issues i ih =>
    rw [countRules_concat, NameTable.sum_values_count, ih, List.length_append,
      List.length_singleton]

/-! ### Summaries -/

/-- The issues found are those of the components. -/
theorem issuesFound_eq (components : List Usage) (files : Nat) :
    (ScanSummary.ofComponents components files).issuesFound =
      (components.map (·.issues.length)).sum := by
  rw [ScanSummary.ofComponents, List.sum, List.foldr_map]

/-- What a run of steps gives comes from its steps. -/
private theorem exists_of_mem_mapM {ε α β : Type} {f : α → Except ε β} {l : List α} {r : List β}
    (h : l.mapM f = .ok r) {b : β} (hb : b ∈ r) : ∃ a ∈ l, f a = .ok b := by
  obtain ⟨hlength, hsteps⟩ := List.forall₂_iff_get.1 (mapM_eq_ok_iff.1 h)
  obtain ⟨i, hi, rfl⟩ := List.getElem_of_mem hb
  exact ⟨_, List.get_mem l ⟨i, hlength ▸ hi⟩, hsteps i (hlength ▸ hi) hi⟩

/-- A file that was scanned has evaluated usages. -/
theorem exists_usages_of_scanFile {ctx : ScanContext} {root : Path} {f : ListedFile}
    {file : String} {usages : List Usage}
    (h : scanFile ctx root f = .ok (.scanned file usages)) :
    ∃ found, usages = evaluateUsages ctx found := by
  simp only [scanFile] at h
  split at h
  · cases h
  · split at h
    · cases h
    · split at h
      · next found _ =>
        cases h
        exact ⟨found, rfl⟩
      · cases h
      · cases h

/-- Every usage of a scan is compliant exactly when it has no issues. -/
theorem isCompliant_of_mem_scan {ctx : ScanContext} {root : Path} {projectPath timestamp : String}
    {files : List ListedFile} {r : ScanResult}
    (h : scanFiles ctx root projectPath timestamp files = .ok r) {u : Usage}
    (hu : u ∈ r.components) : u.isCompliant = u.issues.isEmpty := by
  rw [scanFiles] at h
  split at h
  · cases h
  · next outcomes houtcomes =>
    cases h
    obtain ⟨outcome, houtcome, hu⟩ := List.mem_flatMap.1 hu
    obtain ⟨f, -, hf⟩ := exists_of_mem_mapM houtcomes houtcome
    cases outcome with
    | skipped w => exact absurd hu List.not_mem_nil
    | scanned file usages =>
      obtain ⟨found, rfl⟩ := exists_usages_of_scanFile hf
      change u ∈ evaluateUsages ctx found at hu
      rw [evaluateUsages_eq_map] at hu
      obtain ⟨v, -, rfl⟩ := List.mem_map.1 hu
      rfl

/-! ### Exit codes -/

/-- There are errors exactly when they are counted. -/
theorem hasErrors_iff (usages : List Usage) :
    hasErrors usages = true ↔ 0 < (SeverityCounts.ofIssues (usages.flatMap (·.issues))).error := by
  rw [SeverityCounts.ofIssues_eq, List.countP_pos_iff, ← List.any_eq_true, List.any_flatMap]
  rfl

section Command

variable {m : Type → Type} [Monad m] [LawfulMonad m]

/-- A scan from the command line is the reading of its settings, the listing and the scan of the
files. -/
theorem scanWith_eq (fs : FileAccess m) (o : Overrides) (timestamp : String) :
    scanWith fs o timestamp = (do
      match ← Settings.resolve fs o with
      | .error e => return .error e
      | .ok s => CommandLine.scanSettings fs timestamp s) := by
  simp only [scanWith, prepare, CommandLine.scanSettings, bind_assoc]
  congr 1
  funext settings
  cases settings with
  | error e => simp only [pure_bind]
  | ok s =>
    simp only [bind_assoc, pure_bind]
    congr 1
    funext context
    cases context <;> rfl

/-- The exit code of a scan is that of its result or of its error. -/
theorem exitCode_runScan (fs : FileAccess m) (shown : Bool) (timestamp : String) (o : Overrides) :
    CommandLine.Outcome.exitCode <$> CommandLine.runScan fs shown timestamp o =
      (fun
        | .ok r => CommandLine.exitCodeFor r.components
        | .error e => e.exitCode) <$> scanWith fs o timestamp := by
  rw [scanWith_eq]
  simp only [CommandLine.runScan, CommandLine.withSettings, map_bind]
  congr 1
  funext settings
  cases settings with
  | error e => simp only [map_pure, CommandLine.failure]
  | ok s =>
    simp only [bind_assoc, pure_bind, map_bind]
    rw [map_eq_pure_bind]
    congr 1
    funext result
    cases result <;> simp only [Except.map, map_pure, CommandLine.failure]

end Command

/-! ### One list of issues -/

/-- The counts of a scan, of a report on it and of the command agree on one list of issues. -/
structure CountsAgree (r : ScanResult) (t : Thresholds) (report : Report) : Prop where
  /-- A usage is compliant exactly when it has no issues. -/
  isCompliant : ∀ u ∈ r.components, u.isCompliant = u.issues.isEmpty
  totalComponents : r.summary.totalComponents = r.components.length
  compliantComponents : r.summary.compliantComponents = r.components.countP (·.issues.isEmpty)
  issuesFound : r.summary.issuesFound = (r.components.map (·.issues.length)).sum
  /-- The issues of a report are those of the usages, in order. -/
  issues : report.issues = (r.components.map (·.issues)).flatten
  length_issues : report.issues.length = r.summary.issuesFound
  /-- Each severity is counted as often as it occurs. -/
  severityCounts : report.severityCounts =
    { error := report.issues.countP (·.severity = .error)
      warning := report.issues.countP (·.severity = .warning)
      info := report.issues.countP (·.severity = .info) }
  sum_severityCounts : report.severityCounts.error + report.severityCounts.warning +
    report.severityCounts.info = report.issues.length
  sum_ruleCounts : report.ruleCounts.values.sum = report.issues.length
  /-- The rules that are counted are those that occur. -/
  mem_rules : ∀ rule, rule ∈ report.ruleCounts.keys ↔ ∃ i ∈ report.issues, i.rule = rule
  /-- A count is the number of occurrences, and is not zero. -/
  get?_rule : ∀ rule n, report.ruleCounts.get? rule = some n ↔
    n = report.issues.countP (·.rule = rule) ∧ 0 < n
  addressIssues : addressIssues ∈ report.recommendations ↔ t.issuesAbove < r.summary.issuesFound
  hasErrors : hasErrors r.components = true ↔ 0 < report.severityCounts.error

/-- The advice is given exactly when there are more issues than the threshold. -/
theorem addressIssues_mem_iff (score : Float) (issuesFound : Nat) (t : Thresholds) :
    addressIssues ∈ recommendations score issuesFound t ↔ t.issuesAbove < issuesFound := by
  have hreview : addressIssues ∉ if score < t.reviewBelowScore then [reviewUsage] else [] := by
    split
    · decide
    · exact List.not_mem_nil
  rw [recommendations, List.mem_append, or_iff_right hreview]
  split
  · next h => exact iff_of_true List.mem_cons_self h
  · next h => exact iff_of_false List.not_mem_nil h

/-- **Scan, summary, report and exit code count the same issues.** For every result of a scan,
whatever was listed and read in whatever time, and for all thresholds, the counts agree on the
issues of the usages one after the other. The command that scans exits with 1 when the report on its
result counts an error and with 0 when it does not, and with the code of the error when the scan
fails. -/
theorem scan_counts_agree {ctx : ScanContext} {root : Path} {projectPath timestamp : String}
    {files : List ListedFile} {r : ScanResult}
    (h : scanFiles ctx root projectPath timestamp files = .ok r) (t : Thresholds) :
    CountsAgree r t (.ofScan r t) ∧
      ∀ {m : Type → Type} [Monad m] [LawfulMonad m] (fs : FileAccess m) (shown : Bool)
        (now : String) (o : Overrides),
        CommandLine.Outcome.exitCode <$> CommandLine.runScan fs shown now o =
          (fun
            | .ok r => if 0 < (Report.ofScan r t).severityCounts.error then 1 else 0
            | .error e => e.exitCode) <$> scanWith fs o now := by
  have hcompliant : ∀ u ∈ r.components, u.isCompliant = u.issues.isEmpty :=
    fun u hu => isCompliant_of_mem_scan h hu
  have hsummary : r.summary = .ofComponents r.components r.scannedFiles.length := by
    rw [scanFiles] at h
    split at h
    · cases h
    · cases h
      rfl
  -- What is left are the numbers of the summary and the listed issues.
  refine ⟨⟨hcompliant, ?_, ?_, ?_, ?_, ?_, SeverityCounts.ofIssues_eq _,
    SeverityCounts.sum_ofIssues _, sum_countRules _, fun _ => mem_keys_countRules,
    fun _ _ => get?_countRules_eq_some_iff, addressIssues_mem_iff _ _ t, hasErrors_iff _⟩, ?_⟩
  · rw [hsummary]
    rfl
  · rw [hsummary, ScanSummary.ofComponents, ← List.countP_eq_length_filter]
    exact List.countP_congr fun u hu => by rw [hcompliant u hu]
  · rw [hsummary, issuesFound_eq]
  · exact List.flatMap_def
  · rw [hsummary, issuesFound_eq]
    exact List.length_flatMap
  · intro m _ _ fs shown now o
    rw [exitCode_runScan]
    congr 1
    funext result
    cases result with
    | error e => rfl
    | ok r =>
      have herrors := hasErrors_iff r.components
      simp only [CommandLine.exitCodeFor, herrors]
      rfl

/-- A file with a component that is not in the catalog, a file that cannot be read, and one that is
not scanned in time. -/
theorem scan_counts_agree_unknown :
    ∃ r : ScanResult, scanFiles bareContext ⟨"/p"⟩ "/p" "now"
        [⟨⟨"/p/b.jsx"⟩, .ok "<VaAlert/>", .still⟩,
          ⟨⟨"/p/c.jsx"⟩, .error (.unreadable ⟨"/p/c.jsx"⟩ .notStored), .still⟩,
          ⟨⟨"/p/d.jsx"⟩, .ok "<VaAlert/>", fun _ => true⟩] = .ok r ∧
      r.warnings.map (·.file) = ["c.jsx", "d.jsx"] ∧
      r.summary.issuesFound = 1 ∧ CountsAgree r {} (.ofScan r {}) := by
  have hfile : scanFile bareContext ⟨"/p"⟩ ⟨⟨"/p/b.jsx"⟩, .ok "<VaAlert/>", .still⟩ =
      .ok (.scanned (fileLabel ⟨"/p"⟩ ⟨"/p/b.jsx"⟩) (evaluateUsages bareContext [loneAlert])) := by
    simp only [scanFile, extractWithin_of_inTime (runsOut_still _ _ _), extract_loneAlert]
    rfl
  have hlate : runsOut bareContext.options (fun _ => true) (fileLabel ⟨"/p"⟩ ⟨"/p/d.jsx"⟩)
      "<VaAlert/>" = true := by decide +kernel
  have htimeout : scanFile bareContext ⟨"/p"⟩ ⟨⟨"/p/d.jsx"⟩, .ok "<VaAlert/>", fun _ => true⟩ =
      .ok (.skipped ⟨fileLabel ⟨"/p"⟩ ⟨"/p/d.jsx"⟩, (ExtractError.timeout 2000).message⟩) := by
    simp only [scanFile, extractWithin_of_runsOut hlate]
    rfl
  have hscan : scanFiles bareContext ⟨"/p"⟩ "/p" "now"
      [⟨⟨"/p/b.jsx"⟩, .ok "<VaAlert/>", .still⟩,
        ⟨⟨"/p/c.jsx"⟩, .error (.unreadable ⟨"/p/c.jsx"⟩ .notStored), .still⟩,
        ⟨⟨"/p/d.jsx"⟩, .ok "<VaAlert/>", fun _ => true⟩] =
      .ok (.new "/p" [fileLabel ⟨"/p"⟩ ⟨"/p/b.jsx"⟩] (evaluateUsages bareContext [loneAlert])
        [⟨fileLabel ⟨"/p"⟩ ⟨"/p/c.jsx"⟩, (AuditError.unreadable ⟨"/p/c.jsx"⟩ .notStored).message⟩,
          ⟨fileLabel ⟨"/p"⟩ ⟨"/p/d.jsx"⟩, (ExtractError.timeout 2000).message⟩]
        "now") := by
    simp only [scanFiles, List.mapM_cons, hfile, htimeout]
    rfl
  exact ⟨_, hscan, by decide +kernel, by decide +kernel, (scan_counts_agree hscan {}).1⟩

end ComponentAudit
