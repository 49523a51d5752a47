import ComponentAudit.Proofs.Scan.Isolation

/-!
# Validation and scans

Validating a component in a file gives the first usage of the component that a scan of the project
gives for this file. The two take different ways: a scan labels the file by its path seen from the
root and evaluates all usages together, a validation takes the path as it is written and evaluates
one usage among the others. The label decides how the file is read, by its extension, and is echoed
in the usages; `dialect_fileLabel` and `extract_relabel` say that this makes no other difference.
A validation has a clock of its own, and fails when its time runs out, whatever came of the file in
the scan.

The main statement is `validateUsage_eq_first_of_scan`.
-/

namespace ComponentAudit

/-! ### Labels and dialects -/

/-- A path strictly below a root and its label are written in the same dialect. -/
theorem dialect_fileLabel {root path : Path} (h : root.components <+: path.components)
    (hne : path.components ≠ root.components) :
    Dialect.ofPath ⟨fileLabel root path⟩ = Dialect.ofPath path := by
  have hlast : (Path.components ⟨fileLabel root path⟩).getLast? = path.components.getLast? := by
    obtain ⟨rest, hrest⟩ := h
    rw [components_fileLabel ⟨rest, hrest⟩, ← hrest, List.drop_left, List.getLast?_append]
    cases hr : rest.getLast? with
    | some c => rfl
    | none =>
      rw [List.getLast?_eq_none_iff] at hr
      exact absurd (by rw [← hrest, hr, List.append_nil]) hne
  have hname : Path.fileName? ⟨fileLabel root path⟩ = path.fileName? := by
    rw [Path.fileName?, Path.fileName?, hlast]
  rw [Dialect.ofPath, Dialect.ofPath, Path.extension?, Path.extension?, hname]

/-! ### Usages under another label -/

/-- The usage with another path of its file. -/
def Usage.relabel (path : String) (u : Usage) : Usage := { u with filePath := path }

/-- The label of a file has no influence on its usages but for being echoed, when it does not
change the dialect. -/
theorem extract_relabel {options : ExtractOptions} {label path : String} (text : String)
    (hdialect : Dialect.ofPath ⟨label⟩ = Dialect.ofPath ⟨path⟩) :
    extract options path text = (extract options label text).map (·.map (Usage.relabel path)) := by
  rw [extract, extract, hdialect]
  cases findSites options (Dialect.ofPath ⟨path⟩) text.toList with
  | error e => rfl
  | ok sites =>
    simp only [Except.map, usagesOf, List.map_zipWith]
    rfl

/-- No accessibility rule looks at the path of a file. -/
theorem AccessEngine.evaluateWith_relabel (ctx : ScanContext) (path : String) (labels : LabelIndex)
    (u : Usage) :
    ctx.accessEngine.evaluateWith labels (u.relabel path) =
      ctx.accessEngine.evaluateWith labels u := by
  have hcheck : ∀ rule ∈ AccessRule.builtin, ∀ (catalog : Catalog) (spec : ComponentSpec)
      (proximity : Nat), rule.check ⟨catalog, u.relabel path, spec, labels, proximity⟩ =
        rule.check ⟨catalog, u, spec, labels, proximity⟩ := by
    intro rule hrule catalog spec proximity
    simp only [AccessRule.builtin, List.mem_cons, List.not_mem_nil, or_false] at hrule
    rcases hrule with rfl | rfl | rfl | rfl | rfl <;> rfl
  rw [AccessEngine.evaluateWith, AccessEngine.evaluateWith,
    show (u.relabel path).componentName = u.componentName from rfl]
  cases ctx.accessEngine.catalog.get? u.componentName with
  | none => rfl
  | some spec =>
    refine congrArg List.flatten (List.map_congr_left fun rule hrule => ?_)
    rw [hcheck rule (List.mem_filter.1 hrule).1]
    rfl

/-- The issues of a usage do not depend on the path of its file. -/
theorem issuesIn_relabel (ctx : ScanContext) (path : String) (usages : List Usage) (u : Usage) :
    issuesIn ctx (usages.map (Usage.relabel path)) (u.relabel path) = issuesIn ctx usages u := by
  have hlabels : LabelIndex.ofUsages ctx.catalog (usages.map (Usage.relabel path)) =
      LabelIndex.ofUsages ctx.catalog usages := by
    rw [LabelIndex.ofUsages, LabelIndex.ofUsages, List.filter_map, List.map_map, List.map_map]
    rfl
  have haccess : ctx.accessEngine.evaluate (u.relabel path) (usages.map (Usage.relabel path)) =
      ctx.accessEngine.evaluate u usages := by
    rw [AccessEngine.evaluate, AccessEngine.evaluate, AccessEngine.evaluateWith_relabel]
    exact congrArg (fun labels => ctx.accessEngine.evaluateWith labels u) hlabels
  rw [issuesIn, issuesIn, haccess]
  rfl

/-! ### Validation -/

/-- A validation of a file that can be extracted in time gives the first usage of the component with
its issues. -/
theorem validateUsage_eq_find? {ctx : ScanContext} (haccess : ctx.accessibility = true)
    {clock : Clock} {read : Path → Except AuditError String} {file : Path} {text : String}
    (hread : read file = .ok text)
    (hintime : runsOut ctx.options clock file.text text = false) {usages : List Usage}
    (hextract : extract ctx.options file.text text = .ok usages) (name : String) :
    validateUsage ctx clock read file name =
      match (ctx.catalog.canonicalName? name).bind fun wanted =>
        (usages.map fun u => u.withIssues (issuesIn ctx usages u)).find?
          fun u => u.componentName = wanted with
      | some u => .ok u
      | none => .error (.componentNotFound file.text name) := by
  rw [validateUsage]
  cases ctx.catalog.canonicalName? name with
  | none => rfl
  | some wanted =>
    simp only [hread, extractWithin_of_inTime hintime, hextract, Option.bind_some, List.find?_map]
    have hname : ((fun u : Usage => decide (u.componentName = wanted)) ∘
        fun u : Usage => u.withIssues (issuesIn ctx usages u)) =
          fun u : Usage => decide (u.componentName = wanted) := rfl
    rw [hname]
    cases usages.find? fun u => decide (u.componentName = wanted) with
    | none => rfl
    | some u => simp only [Option.map_some, issuesIn, haccess, if_true]

/-- A validation whose time runs out fails, unless the name is no component name. -/
theorem validateUsage_of_runsOut {ctx : ScanContext} {clock : Clock}
    {read : Path → Except AuditError String} {file : Path} {text : String}
    (hread : read file = .ok text) (hlate : runsOut ctx.options clock file.text text = true)
    (name : String) :
    validateUsage ctx clock read file name =
      if (ctx.catalog.canonicalName? name).isSome then
        .error (.extraction file.text (.timeout ctx.options.maxMillis))
      else .error (.componentNotFound file.text name) := by
  rw [validateUsage]
  cases ctx.catalog.canonicalName? name with
  | none => rfl
  | some wanted =>
    simp only [hread, extractWithin_of_runsOut hlate]
    rfl

/-- The usages that a scan gives for a file strictly below the root are those of the file as it is
written, with their issues and under the label. -/
theorem components_of_scan {ctx : ScanContext} (hcancelled : ctx.cancelled = false)
    {files : List (Path × String)} {clocks : Path → Clock} {root : Path}
    {projectPath timestamp : String} {r : ScanResult}
    (hscan : (MemoryStore.ofList files).scan ctx clocks root projectPath timestamp = .ok r)
    {listed : List Path}
    (hlist : (MemoryStore.ofList files).list root ctx.includes ctx.excludes = .ok listed)
    {file : Path} (hfile : file ∈ listed) (hbelow : file.components ≠ root.components)
    (hscanned : fileLabel root file ∈ r.scannedFiles) :
    ∃ (text : String) (usages : List Usage), (MemoryStore.ofList files).read file = .ok text ∧
      extract ctx.options file.text text = .ok (usages.map (Usage.relabel file.text)) ∧
      r.components.filter (·.filePath = fileLabel root file) =
        usages.map fun u => u.withIssues (issuesIn ctx usages u) := by
  obtain ⟨includes, excludes, hincludes, hexcludes, rfl⟩ :=
    MemoryStore.exists_patterns_of_list hlist
  obtain ⟨f, hf, rfl⟩ := List.mem_map.1 hfile
  obtain ⟨-, rfl⟩ := (scan_eq_ok_iff hcancelled hincludes hexcludes files).1 hscan
  have habout := @about_resultOf ctx clocks root includes excludes files projectPath timestamp f hf
  simp only [ScanResult.about, Prod.mk.injEq] at habout
  obtain ⟨hfiles, husages, -⟩ := habout
  have hmem : fileLabel root f.path ∈ (storedOutcome ctx clocks root f).files := by
    rw [← hfiles]
    exact List.mem_filter.2 ⟨hscanned, by simp⟩
  -- The scan reports the file as scanned, so its time did not run out there.
  have hintime : storedOutcome ctx clocks root f =
      fileOutcome ctx (fileLabel root f.path) f.text :=
    outcomeWithin_of_isScanned (FileOutcome.isScanned_of_mem_files hmem)
  rw [husages]
  rw [hintime, fileOutcome] at hmem ⊢
  cases hextract : extract ctx.options (fileLabel root f.path) f.text with
  | error e =>
    rw [hextract] at hmem
    exact absurd hmem List.not_mem_nil
  | ok usages =>
    have hdialect := dialect_fileLabel (MemoryStore.isPrefix_of_mem_selected hf) hbelow
    refine ⟨f.text, usages, MemoryStore.read_of_mem_selected hf, ?_,
      evaluateUsages_eq_map ctx usages⟩
    rw [extract_relabel f.text hdialect, hextract]
    rfl

/-- **Validation agrees with the scan.** Take a file strictly below the root that a scan lists and
reports as scanned, whatever its clocks. Validating a component in it in time gives the first usage
of that component among those that the scan gives for the file, the same in every field but for the
path, which is the one given; and it finds nothing exactly when the name is no component name or the
scan gives no such usage.

A validation whose own time runs out fails with the limit, unless the name is no component name.
Without a limit no time runs out. -/
theorem validateUsage_eq_first_of_scan {ctx : ScanContext} (haccess : ctx.accessibility = true)
    (hcancelled : ctx.cancelled = false) (files : List (Path × String)) {clocks : Path → Clock}
    {root : Path} {projectPath timestamp : String} {r : ScanResult}
    (hscan : (MemoryStore.ofList files).scan ctx clocks root projectPath timestamp = .ok r)
    {listed : List Path}
    (hlist : (MemoryStore.ofList files).list root ctx.includes ctx.excludes = .ok listed)
    {file : Path} (hfile : file ∈ listed) (hbelow : file.components ≠ root.components)
    (hscanned : fileLabel root file ∈ r.scannedFiles) (clock : Clock) (name : String) :
    ∃ text, (MemoryStore.ofList files).read file = .ok text ∧
      (ctx.options.maxMillis = 0 → runsOut ctx.options clock file.text text = false) ∧
      (runsOut ctx.options clock file.text text = false →
        validateUsage ctx clock (MemoryStore.ofList files).read file name =
          match (ctx.catalog.canonicalName? name).bind fun wanted => r.components.find? fun u =>
            u.filePath = fileLabel root file ∧ u.componentName = wanted with
          | some u => .ok { u with filePath := file.text }
          | none => .error (.componentNotFound file.text name)) ∧
      (runsOut ctx.options clock file.text text = true →
        validateUsage ctx clock (MemoryStore.ofList files).read file name =
          if (ctx.catalog.canonicalName? name).isSome then
            .error (.extraction file.text (.timeout ctx.options.maxMillis))
          else .error (.componentNotFound file.text name)) := by
  obtain ⟨text, usages, hread, hextract, hcomponents⟩ :=
    components_of_scan hcancelled hscan hlist hfile hbelow hscanned
  refine ⟨text, hread, fun hlimit => runsOut_of_unlimited hlimit _ _ _, fun hintime => ?_,
    fun hlate => validateUsage_of_runsOut hread hlate name⟩
  -- Evaluating the relabelled usages relabels the evaluated ones.
  have hevaluated : ((usages.map (Usage.relabel file.text)).map fun u =>
      u.withIssues (issuesIn ctx (usages.map (Usage.relabel file.text)) u)) =
        (r.components.filter (·.filePath = fileLabel root file)).map (Usage.relabel file.text) := by
    rw [hcomponents, List.map_map, List.map_map]
    refine List.map_congr_left fun u _ => ?_
    simp only [Function.comp_apply, issuesIn_relabel]
    rfl
  rw [validateUsage_eq_find? haccess hread hintime hextract name, hevaluated]
  cases ctx.catalog.canonicalName? name with
  | none => rfl
  | some wanted =>
    have hname : ((fun u : Usage => decide (u.componentName = wanted)) ∘ Usage.relabel file.text) =
        fun u : Usage => decide (u.componentName = wanted) := rfl
    simp only [Option.bind_some, List.find?_map, hname, List.find?_filter, decide_eq_true_eq]
    cases r.components.find? fun u =>
      decide (u.filePath = fileLabel root file ∧ u.componentName = wanted) <;> rfl

/-- One of two files: its alert is found under the name as written and under no other name. A clock
that is late from the start lets the validation fail. -/
theorem validateUsage_eq_first_of_scan_alert :
    ∃ (r : ScanResult) (u : Usage),
      (MemoryStore.ofList twoFiles).scan bareContext (lateAfter 1) ⟨"/p"⟩ "/p" "now" = .ok r ∧
      r.components = [u] ∧ u.filePath = "b.jsx" ∧ u.issues ≠ [] ∧
      validateUsage bareContext .still (MemoryStore.ofList twoFiles).read ⟨"/p/b.jsx"⟩ "VaAlert" =
        .ok { u with filePath := "/p/b.jsx" } ∧
      validateUsage bareContext .still (MemoryStore.ofList twoFiles).read ⟨"/p/b.jsx"⟩ "va-link" =
        .error (.componentNotFound "/p/b.jsx" "va-link") ∧
      validateUsage bareContext (fun _ => true) (MemoryStore.ofList twoFiles).read ⟨"/p/b.jsx"⟩
        "va-link" = .error (.extraction "/p/b.jsx" (.timeout 2000)) := by
  obtain ⟨hincludes, hexcludes⟩ := readPatterns_bareContext
  have hscan := (scan_eq_ok_iff rfl hincludes hexcludes twoFiles).2
    ⟨readable_twoFiles (lateAfter 1), (rfl : resultOf "/p" "now" _ = _)⟩
  have hlist := MemoryStore.list_eq_ok (MemoryStore.ofList twoFiles) ⟨"/p"⟩ hincludes hexcludes
  rw [selected_twoFiles] at hscan hlist
  -- The first file does not look at the clock, and the second does once.
  have hbinary : runsOut bareContext.options (lateAfter 1 ⟨"/p/a.jsx"⟩)
      (fileLabel ⟨"/p"⟩ ⟨"/p/a.jsx"⟩) "\x00" = false := by decide +kernel
  have hintime : runsOut bareContext.options (lateAfter 1 ⟨"/p/b.jsx"⟩)
      (fileLabel ⟨"/p"⟩ ⟨"/p/b.jsx"⟩) "<VaAlert/>" = false := by decide +kernel
  have houtcomes : [StoredFile.mk ⟨"/p/a.jsx"⟩ "\x00", ⟨⟨"/p/b.jsx"⟩, "<VaAlert/>"⟩].map
      (storedOutcome bareContext (lateAfter 1) ⟨"/p"⟩) =
        [.skipped ⟨"a.jsx", ExtractError.message .binary⟩,
          .scanned "b.jsx" (evaluateUsages bareContext [loneAlert])] := by
    simp only [List.map_cons, List.map_nil, storedOutcome, outcomeWithin, fileOutcome, hbinary,
      hintime, extract_loneAlert]
    rfl
  rw [houtcomes] at hscan
  have hvalidate := validateUsage_eq_first_of_scan rfl rfl twoFiles hscan hlist
    (List.mem_cons_of_mem _ List.mem_cons_self) (by decide +kernel) (by decide +kernel)
  refine ⟨_, _, hscan, rfl, rfl, by decide +kernel, ?_, ?_, ?_⟩
  · obtain ⟨text, -, -, hfound, -⟩ := hvalidate .still "VaAlert"
    exact hfound (runsOut_still _ _ _)
  · obtain ⟨text, -, -, hfound, -⟩ := hvalidate .still "va-link"
    exact hfound (runsOut_still _ _ _)
  · obtain ⟨text, hread, -, -, hlate⟩ := hvalidate (fun _ => true) "va-link"
    obtain rfl : "<VaAlert/>" = text := Except.ok.inj hread
    exact hlate (by decide +kernel)

end ComponentAudit
