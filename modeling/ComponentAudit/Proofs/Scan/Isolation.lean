import ComponentAudit.Proofs.Invocation.Markup
import ComponentAudit.Proofs.Limit.Time
import ComponentAudit.Proofs.Store.Memory
import ComponentAudit.Scan.Run
import Mathlib.Data.List.Forall2

/-!
# Files of a scan

A scan treats every listed file on its own: what comes of a file that is scanned in time is a
function of its label, its text and the context (`fileOutcome`), a file whose time runs out gives a
warning (`outcomeWithin`), and the result of the scan is put together from the outcomes in the order
of the listing (`scan_eq_ok_iff`). Since paths below a root are told apart by their labels
(`fileLabel_inj`), what the result says about one file can be read off the result, and does not
change with the other files.

The clocks are arbitrary, one for each file. Of a clock it only matters whether the time of its file
runs out (`outcomeWithin_congr`).

The main statement is `scan_isolates_files`.
-/

namespace ComponentAudit

/-! ### Labels -/

/-- The label of a file has the components that follow those of the root. -/
theorem components_fileLabel {root path : Path} (h : root.components <+: path.components) :
    Path.components ⟨fileLabel root path⟩ = path.components.drop root.components.length := by
  rw [fileLabel, Path.components_display, Path.components_relativeTo h]

/-- Paths below a root are told apart by their labels. -/
theorem fileLabel_inj {root path path' : Path} (h : root.components <+: path.components)
    (h' : root.components <+: path'.components) (heq : fileLabel root path = fileLabel root path') :
    path.components = path'.components := by
  have hdrop := components_fileLabel h
  rw [heq, components_fileLabel h'] at hdrop
  calc path.components
      = root.components ++ path.components.drop root.components.length :=
        (List.prefix_iff_eq_append.1 h).symm
    _ = root.components ++ path'.components.drop root.components.length := by rw [hdrop]
    _ = path'.components := List.prefix_iff_eq_append.1 h'

/-! ### Outcomes -/

namespace FileOutcome

/-- Whether the file was scanned. -/
def isScanned : FileOutcome → Bool
  | .scanned _ _ => true
  | .skipped _ => false

/-- The label of the file. -/
def file : FileOutcome → String
  | .scanned file _ => file
  | .skipped w => w.file

/-- The file, if it was scanned. -/
def files : FileOutcome → List String
  | .scanned file _ => [file]
  | .skipped _ => []

theorem isScanned_of_mem_files {o : FileOutcome} {file : String} (h : file ∈ o.files) :
    o.isScanned = true := by
  cases o with
  | scanned => rfl
  | skipped => exact absurd h List.not_mem_nil

/-- The usages that were found. -/
def usages : FileOutcome → List Usage
  | .scanned _ usages => usages
  | .skipped _ => []

/-- The warning, if the file was not scanned. -/
def warnings : FileOutcome → List ScanWarning
  | .scanned _ _ => []
  | .skipped w => [w]

end FileOutcome

/-! ### Single files -/

/-- The issues of a usage among those of its file. -/
def issuesIn (ctx : ScanContext) (usages : List Usage) (u : Usage) : List Issue :=
  ctx.designEngine.evaluate u ++
    if ctx.accessibility then ctx.accessEngine.evaluate u usages else []

/-- Every usage of a file gets its own issues. -/
theorem evaluateUsages_eq_map (ctx : ScanContext) (usages : List Usage) :
    evaluateUsages ctx usages = usages.map fun u => u.withIssues (issuesIn ctx usages u) := by
  have haccess : (if ctx.accessibility then ctx.accessEngine.evaluateFile usages
      else usages.map fun _ => []) = usages.map fun u =>
        if ctx.accessibility then ctx.accessEngine.evaluate u usages else [] := by
    cases ctx.accessibility <;> rfl
  rw [evaluateUsages, haccess, List.zipWith_map_right, List.zipWith_self]
  rfl

/-- Every usage of a file names the file as its path. -/
theorem filePath_of_mem_extract {options : ExtractOptions} {path text : String}
    {usages : List Usage} (h : extract options path text = .ok usages) {u : Usage}
    (hu : u ∈ usages) : u.filePath = path := by
  rw [extract] at h
  cases hsites : findSites options (Dialect.ofPath ⟨path⟩) text.toList with
  | error e =>
    rw [hsites] at h
    cases h
  | ok sites =>
    rw [hsites] at h
    cases h
    rw [usagesOf, ← List.map_uncurry_zip_eq_zipWith] at hu
    obtain ⟨_, _, rfl⟩ := List.mem_map.1 hu
    rfl

/-- What comes of a file that is given its time, by its label and its text. -/
def fileOutcome (ctx : ScanContext) (file text : String) : FileOutcome :=
  match extract ctx.options file text with
  | .ok usages => .scanned file (evaluateUsages ctx usages)
  | .error e => .skipped ⟨file, e.message⟩

/-- What comes of a file within the time that its clock leaves. -/
def outcomeWithin (ctx : ScanContext) (clock : Clock) (file text : String) : FileOutcome :=
  if runsOut ctx.options clock file text then
    .skipped ⟨file, (ExtractError.timeout ctx.options.maxMillis).message⟩
  else fileOutcome ctx file text

/-- A clock that is late from the start leaves no time for a file with usages. -/
theorem runsOut_of_usages_ne_nil {ctx : ScanContext} (hlimit : ctx.options.maxMillis ≠ 0)
    {clock : Clock} (hlate : clock 0 = true) {file text : String}
    (husages : (fileOutcome ctx file text).usages ≠ []) :
    runsOut ctx.options clock file text = true := by
  rw [fileOutcome] at husages
  split at husages
  · next usages hextract =>
    refine runsOut_of_late hlimit hextract ?_ hlate
    rintro rfl
    exact husages rfl
  · exact absurd rfl husages

/-- Clocks that agree on whether the time of a file runs out make no difference. -/
theorem outcomeWithin_congr {ctx : ScanContext} {clock clock' : Clock} {file text : String}
    (h : runsOut ctx.options clock' file text = runsOut ctx.options clock file text) :
    outcomeWithin ctx clock' file text = outcomeWithin ctx clock file text := by
  rw [outcomeWithin, outcomeWithin, h]

/-- No string literal that ends inside a character is met before the time of the file runs out, so
that the file is scanned or skipped. -/
def Readable (ctx : ScanContext) (clock : Clock) (file text : String) : Prop :=
  extractWithin ctx.options clock file text ≠ .error .splitCharacter

/-- A file without such a literal is readable, whatever its clock. -/
theorem readable_of_extract {ctx : ScanContext} {clock : Clock} {file text : String}
    (h : extract ctx.options file text ≠ .error .splitCharacter) :
    Readable ctx clock file text := by
  rw [Readable, extractWithin]
  split
  · exact nofun
  · exact h

theorem readable_congr {ctx : ScanContext} {clock clock' : Clock} {file text : String}
    (h : runsOut ctx.options clock' file text = runsOut ctx.options clock file text) :
    Readable ctx clock' file text ↔ Readable ctx clock file text := by
  rw [Readable, Readable, extractWithin, extractWithin, h]

/-- **The scan of a file** succeeds exactly when it is readable, with what comes of it in its time.
-/
theorem scanFile_eq_ok_iff {ctx : ScanContext} (hcancelled : ctx.cancelled = false)
    {root path : Path} {clock : Clock} {text : String} {outcome : FileOutcome} :
    scanFile ctx root ⟨path, .ok text, clock⟩ = .ok outcome ↔
      Readable ctx clock (fileLabel root path) text ∧
        outcome = outcomeWithin ctx clock (fileLabel root path) text := by
  simp only [scanFile, Readable, outcomeWithin, hcancelled, Bool.false_eq_true, if_false]
  cases hlate : runsOut ctx.options clock (fileLabel root path) text with
  | true => simp [extractWithin_of_runsOut hlate, eq_comm]
  | false =>
    simp only [extractWithin_of_inTime hlate, fileOutcome, Bool.false_eq_true, if_false]
    cases extract ctx.options (fileLabel root path) text with
    | ok usages => simp [eq_comm]
    | error e => cases e <;> simp [eq_comm]

theorem file_outcomeWithin (ctx : ScanContext) (clock : Clock) (file text : String) :
    (outcomeWithin ctx clock file text).file = file := by
  rw [outcomeWithin, fileOutcome]
  split
  · rfl
  · cases extract ctx.options file text <;> rfl

/-- A file that was scanned had its time. -/
theorem outcomeWithin_of_isScanned {ctx : ScanContext} {clock : Clock} {file text : String}
    (h : (outcomeWithin ctx clock file text).isScanned = true) :
    outcomeWithin ctx clock file text = fileOutcome ctx file text := by
  rw [outcomeWithin] at h ⊢
  split at h
  · cases h
  · next hlate => rw [if_neg hlate]

/-- The usages in the outcome of a file name that file. -/
theorem filePath_of_mem_outcomeWithin {ctx : ScanContext} {clock : Clock} {file text : String}
    {u : Usage} (hu : u ∈ (outcomeWithin ctx clock file text).usages) : u.filePath = file := by
  rw [outcomeWithin] at hu
  split at hu
  · exact absurd hu List.not_mem_nil
  rw [fileOutcome] at hu
  split at hu
  · next usages hextract =>
    rw [FileOutcome.usages, evaluateUsages_eq_map] at hu
    obtain ⟨v, hv, rfl⟩ := List.mem_map.1 hu
    have hfile := filePath_of_mem_extract hextract hv
    exact hfile
  · exact absurd hu List.not_mem_nil

/-- The scanned files, outcome by outcome. -/
theorem scannedFiles_eq_flatMap (outcomes : List FileOutcome) :
    scannedFiles outcomes = outcomes.flatMap (·.files) := by
  induction outcomes with
  | nil => rfl
  | cons o rest ih => cases o <;> simp_all [scannedFiles, FileOutcome.files]

/-- The warnings, outcome by outcome. -/
theorem skippedFiles_eq_flatMap (outcomes : List FileOutcome) :
    skippedFiles outcomes = outcomes.flatMap (·.warnings) := by
  induction outcomes with
  | nil => rfl
  | cons o rest ih => cases o <;> simp_all [skippedFiles, FileOutcome.warnings]

/-- The usages, outcome by outcome. -/
theorem scannedUsages_eq_flatMap (outcomes : List FileOutcome) :
    scannedUsages outcomes = outcomes.flatMap (·.usages) := by
  induction outcomes with
  | nil => rfl
  | cons o rest ih => cases o <;> simp_all [scannedUsages, FileOutcome.usages]

/-- What the result of a scan says about one file: whether it was scanned, its usages and the
warnings about it. -/
def ScanResult.about (r : ScanResult) (file : String) :
    List String × List Usage × List ScanWarning :=
  (r.scannedFiles.filter (· = file), r.components.filter (·.filePath = file),
    r.warnings.filter (·.file = file))

/-- What the outcomes contribute under one label is what the outcome with that label does. -/
private theorem filter_flatMap_file {β : Type} (g : FileOutcome → List β) (key : β → String)
    {outcomes : List FileOutcome} (hdistinct : outcomes.Pairwise fun o o' => o.file ≠ o'.file)
    (hkey : ∀ o ∈ outcomes, ∀ b ∈ g o, key b = o.file) {o : FileOutcome} (ho : o ∈ outcomes) :
    (outcomes.flatMap g).filter (fun b => key b = o.file) = g o := by
  induction outcomes with
  | nil => exact absurd ho List.not_mem_nil
  | cons a rest ih =>
    obtain ⟨hhead, htail⟩ := List.pairwise_cons.1 hdistinct
    rw [List.flatMap_cons, List.filter_append]
    rcases List.mem_cons.1 ho with rfl | ho
    · have hown : (g o).filter (fun b => key b = o.file) = g o :=
        List.filter_eq_self.2 fun b hb => by simpa using hkey o List.mem_cons_self b hb
      have hothers : (rest.flatMap g).filter (fun b => key b = o.file) = [] := by
        refine List.filter_eq_nil_iff.2 fun b hb => ?_
        obtain ⟨a, ha, hb⟩ := List.mem_flatMap.1 hb
        rw [decide_eq_true_eq, hkey a (List.mem_cons_of_mem _ ha) b hb]
        exact Ne.symm (hhead a ha)
      rw [hown, hothers, List.append_nil]
    · have hown : (g a).filter (fun b => key b = o.file) = [] := by
        refine List.filter_eq_nil_iff.2 fun b hb => ?_
        rw [decide_eq_true_eq, hkey a List.mem_cons_self b hb]
        exact hhead o ho
      rw [hown, List.nil_append]
      exact ih htail (fun a ha => hkey a (List.mem_cons_of_mem _ ha)) ho

/-! ### Whole scans -/

/-- Files are told by their paths and by what reading them gives. -/
private theorem eq_of_map_path {s : MemoryStore} {l l' : List StoredFile}
    (hpaths : l.map (·.path) = l'.map (·.path)) (h : ∀ f ∈ l, s.read f.path = .ok f.text)
    (h' : ∀ f ∈ l', s.read f.path = .ok f.text) : l = l' := by
  induction l generalizing l' with
  | nil => exact (List.map_eq_nil_iff.1 hpaths.symm).symm
  | cons f l ih =>
    obtain ⟨g, l', rfl, hpath, hpaths⟩ := List.map_eq_cons_iff.1 hpaths.symm
    have htext : f.text = g.text := by
      have hread := h' g List.mem_cons_self
      rw [hpath, h f List.mem_cons_self] at hread
      exact Except.ok.inj hread
    rw [ih hpaths.symm (fun f hf => h f (List.mem_cons_of_mem _ hf))
      fun f hf => h' f (List.mem_cons_of_mem _ hf)]
    cases f
    cases g
    simp_all

/-- Steps on the items of a list all succeed exactly when each gives the result in its place. -/
theorem mapM_eq_ok_iff {ε α β : Type} {f : α → Except ε β} {l : List α} {r : List β} :
    l.mapM f = .ok r ↔ List.Forall₂ (fun a b => f a = .ok b) l r := by
  induction l generalizing r with
  | nil =>
    rw [List.mapM_nil, List.forall₂_nil_left_iff]
    exact ⟨fun h => (Except.ok.inj h).symm, fun h => congrArg Except.ok h.symm⟩
  | cons a l ih =>
    rw [List.mapM_cons, List.forall₂_cons_left_iff]
    cases hfa : f a with
    | error e =>
      refine iff_of_false (fun h => nomatch h) ?_
      rintro ⟨_, _, hb, -⟩
      cases hb
    | ok b =>
      cases hl : l.mapM f with
      | error e =>
        refine iff_of_false (fun h => nomatch h) ?_
        rintro ⟨_, _, -, hbs, -⟩
        exact nomatch hl.symm.trans (ih.2 hbs)
      | ok bs =>
        constructor
        · rintro ⟨⟩
          exact ⟨b, bs, rfl, ih.1 hl, rfl⟩
        · rintro ⟨_, _, ⟨⟩, hbs, rfl⟩
          cases hl.symm.trans (ih.2 hbs)
          rfl

/-- Steps that each succeed exactly under a condition, and then with a known result. -/
private theorem mapM_eq_ok_map_iff {ε α β : Type} {f : α → Except ε β} {g : α → β} {P : α → Prop}
    (h : ∀ a b, f a = .ok b ↔ P a ∧ b = g a) {l : List α} {r : List β} :
    l.mapM f = .ok r ↔ (∀ a ∈ l, P a) ∧ r = l.map g := by
  have hsteps : (fun a b => f a = .ok b) = fun a b => P a ∧ g a = b := by
    funext a b
    rw [h, eq_comm (a := b)]
  rw [mapM_eq_ok_iff, hsteps, List.forall₂_and_left, ← List.forall₂_map_left_iff,
    List.forall₂_eq_eq_eq, eq_comm (a := r)]

/-- The result of a scan with the given outcomes. -/
def resultOf (projectPath timestamp : String) (outcomes : List FileOutcome) : ScanResult :=
  .new projectPath (scannedFiles outcomes) (scannedUsages outcomes) (skippedFiles outcomes)
    timestamp

section Scan

variable {ctx : ScanContext} {clocks : Path → Clock} {root : Path}
  {includes excludes : List Glob.Pattern}

/-- Whether the time of a stored file below a root runs out. -/
def late (ctx : ScanContext) (clocks : Path → Clock) (root : Path) (f : StoredFile) : Bool :=
  runsOut ctx.options (clocks f.path) (fileLabel root f.path) f.text

/-- What comes of a stored file below a root. -/
def storedOutcome (ctx : ScanContext) (clocks : Path → Clock) (root : Path) (f : StoredFile) :
    FileOutcome :=
  outcomeWithin ctx (clocks f.path) (fileLabel root f.path) f.text

/-- A scan succeeds exactly when every listed file is readable, and its result is made of what
comes of each file on its own. -/
theorem scan_eq_ok_iff (hcancelled : ctx.cancelled = false)
    (hincludes : readPatterns ctx.includes = .ok includes)
    (hexcludes : readPatterns ctx.excludes = .ok excludes) (files : List (Path × String))
    {projectPath timestamp : String} {r : ScanResult} :
    (MemoryStore.ofList files).scan ctx clocks root projectPath timestamp = .ok r ↔
      (∀ f ∈ (MemoryStore.ofList files).selected root includes excludes,
        Readable ctx (clocks f.path) (fileLabel root f.path) f.text) ∧
      r = resultOf projectPath timestamp
        (((MemoryStore.ofList files).selected root includes excludes).map
          (storedOutcome ctx clocks root)) := by
  have hread : (((MemoryStore.ofList files).selected root includes excludes).map (·.path)).map
      (fun p => (⟨p, (MemoryStore.ofList files).read p, clocks p⟩ : ListedFile)) =
        ((MemoryStore.ofList files).selected root includes excludes).map
          fun f => ⟨f.path, .ok f.text, clocks f.path⟩ := by
    rw [List.map_map]
    refine List.map_congr_left fun f hf => ?_
    have hread := MemoryStore.read_of_mem_selected hf
    exact congrArg (fun text => ListedFile.mk f.path text (clocks f.path)) hread
  have hsteps : ∀ outcomes, ((MemoryStore.ofList files).selected root includes excludes).mapM
      (fun f => scanFile ctx root ⟨f.path, .ok f.text, clocks f.path⟩) = .ok outcomes ↔ _ :=
    fun outcomes => mapM_eq_ok_map_iff fun f outcome => scanFile_eq_ok_iff hcancelled
  rw [MemoryStore.scan, MemoryStore.list_eq_ok _ _ hincludes hexcludes]
  simp only [hread, scanFiles, List.mapM_map]
  split
  · next e he =>
    refine iff_of_false (fun h => nomatch h) fun ⟨hall, _⟩ => ?_
    have hok := (hsteps _).2 ⟨hall, rfl⟩
    exact nomatch he.symm.trans hok
  · next outcomes houtcomes =>
    obtain ⟨hall, rfl⟩ := (hsteps outcomes).1 houtcomes
    rw [Except.ok.injEq, eq_comm]
    exact ⟨fun h => ⟨hall, h⟩, fun h => h.2⟩

/-- Listed files have different labels. -/
theorem pairwise_fileLabel_selected (files : List (Path × String)) :
    ((MemoryStore.ofList files).selected root includes excludes).Pairwise
      fun f g => fileLabel root f.path ≠ fileLabel root g.path := by
  have hascending := (MemoryStore.ascending_ofList files).pairwise_ne.filter
    fun f => MemoryStore.selects root includes excludes f.path
  refine hascending.imp_of_mem fun {f g} hf hg hne heq => hne ?_
  exact fileLabel_inj (MemoryStore.isPrefix_of_mem_selected hf)
    (MemoryStore.isPrefix_of_mem_selected hg) heq

private theorem file_storedOutcome (f : StoredFile) :
    (storedOutcome ctx clocks root f).file = fileLabel root f.path := file_outcomeWithin ctx _ _ _

/-- What the result of a scan says about a listed file is what comes of that file. -/
theorem about_resultOf (files : List (Path × String)) (projectPath timestamp : String)
    {f : StoredFile} (hf : f ∈ (MemoryStore.ofList files).selected root includes excludes) :
    (resultOf projectPath timestamp
      (((MemoryStore.ofList files).selected root includes excludes).map
        (storedOutcome ctx clocks root))).about (fileLabel root f.path) =
      ((storedOutcome ctx clocks root f).files, (storedOutcome ctx clocks root f).usages,
        (storedOutcome ctx clocks root f).warnings) := by
  have hdistinct : (((MemoryStore.ofList files).selected root includes excludes).map
      (storedOutcome ctx clocks root)).Pairwise fun o o' => o.file ≠ o'.file := by
    rw [List.pairwise_map]
    simpa only [file_storedOutcome] using pairwise_fileLabel_selected files
  have hmem := List.mem_map_of_mem (f := storedOutcome ctx clocks root) hf
  simp only [ScanResult.about, resultOf, ScanResult.new, scannedFiles_eq_flatMap,
    scannedUsages_eq_flatMap, skippedFiles_eq_flatMap, ← @file_storedOutcome ctx clocks root f]
  rw [Prod.mk.injEq, Prod.mk.injEq]
  refine ⟨?_, ?_, ?_⟩
  · refine filter_flatMap_file FileOutcome.files id hdistinct ?_ hmem
    rintro o - file hfile
    cases o <;> simp_all [FileOutcome.files, FileOutcome.file]
  · refine filter_flatMap_file FileOutcome.usages Usage.filePath hdistinct ?_ hmem
    intro o ho u hu
    obtain ⟨g, -, rfl⟩ := List.mem_map.1 ho
    rw [file_storedOutcome, filePath_of_mem_outcomeWithin hu]
  · refine filter_flatMap_file FileOutcome.warnings ScanWarning.file hdistinct ?_ hmem
    rintro o - w hw
    cases o <;> simp_all [FileOutcome.warnings, FileOutcome.file]

/-! ### Isolation -/

/-- The result accounts for the listed files one by one: each has an entry among the scanned files
or among the warnings, in the order of the listing, and no label has two; the usages are those of
the scanned files one after the other. Which files are scanned depends on the time that each of them
is given, but not what a scanned file contributes. -/
structure ScanResult.Accounts (ctx : ScanContext) (clocks : Path → Clock) (root : Path)
    (listed : List StoredFile) (r : ScanResult) : Prop where
  scannedFiles : r.scannedFiles =
    (listed.filter fun f => (storedOutcome ctx clocks root f).isScanned).map
      fun f => fileLabel root f.path
  warnings : r.warnings.map (·.file) =
    (listed.filter fun f => !(storedOutcome ctx clocks root f).isScanned).map
      fun f => fileLabel root f.path
  /-- A file that is skipped gives one warning, with the reason. -/
  reasons : r.warnings = listed.flatMap fun f => (storedOutcome ctx clocks root f).warnings
  components : r.components =
    (listed.filter fun f => (storedOutcome ctx clocks root f).isScanned).flatMap
      fun f => (fileOutcome ctx (fileLabel root f.path) f.text).usages
  distinct : (r.scannedFiles ++ r.warnings.map (·.file)).Nodup

/-- What is put together from the outcomes of files with different labels accounts for them. -/
theorem accounts_resultOf (projectPath timestamp : String) {listed : List StoredFile}
    (hdistinct : listed.Pairwise fun f g => fileLabel root f.path ≠ fileLabel root g.path) :
    (resultOf projectPath timestamp (listed.map (storedOutcome ctx clocks root))).Accounts ctx
      clocks root listed := by
  have hentries : (listed.map (storedOutcome ctx clocks root)).flatMap (·.files) =
        (listed.filter fun f => (storedOutcome ctx clocks root f).isScanned).map
          (fun f => fileLabel root f.path) ∧
      ((listed.map (storedOutcome ctx clocks root)).flatMap (·.warnings)).map (·.file) =
        (listed.filter fun f => !(storedOutcome ctx clocks root f).isScanned).map
          (fun f => fileLabel root f.path) ∧
      (listed.map (storedOutcome ctx clocks root)).flatMap (·.usages) =
        (listed.filter fun f => (storedOutcome ctx clocks root f).isScanned).flatMap
          fun f => (storedOutcome ctx clocks root f).usages := by
    clear hdistinct
    induction listed with
    | nil => exact ⟨rfl, rfl, rfl⟩
    | cons f listed ih =>
      obtain ⟨hfiles, hwarnings, husages⟩ := ih
      have hlabel := @file_storedOutcome ctx clocks root f
      simp only [List.map_cons, List.flatMap_cons, List.map_append, hfiles, hwarnings, husages,
        List.filter_cons]
      cases h : storedOutcome ctx clocks root f <;>
        simp_all [FileOutcome.files, FileOutcome.usages, FileOutcome.warnings,
          FileOutcome.isScanned, FileOutcome.file]
  -- A scanned file had its time, so the clocks have no part in what it contributes.
  have hintime : (listed.filter fun f => (storedOutcome ctx clocks root f).isScanned).flatMap
        (fun f => (storedOutcome ctx clocks root f).usages) =
      (listed.filter fun f => (storedOutcome ctx clocks root f).isScanned).flatMap
        fun f => (fileOutcome ctx (fileLabel root f.path) f.text).usages := by
    rw [List.flatMap_def, List.flatMap_def]
    refine congrArg List.flatten (List.map_congr_left fun f hf => ?_)
    exact congrArg FileOutcome.usages (outcomeWithin_of_isScanned (List.mem_filter.1 hf).2)
  obtain ⟨hfiles, hwarnings, husages⟩ := hentries
  have hreasons := skippedFiles_eq_flatMap (listed.map (storedOutcome ctx clocks root))
  rw [List.flatMap_map] at hreasons
  rw [← scannedFiles_eq_flatMap] at hfiles
  rw [← skippedFiles_eq_flatMap] at hwarnings
  rw [← scannedUsages_eq_flatMap] at husages
  refine ⟨hfiles, hwarnings, hreasons, husages.trans hintime, ?_⟩
  simp only [resultOf, ScanResult.new, hfiles, hwarnings]
  rw [← List.map_append]
  exact ((List.filter_append_perm _ _).map _).nodup_iff.2 (List.pairwise_map.2 hdistinct)

/-- **A scan accounts for every file on its own.** Whatever the clocks of its files say, a scan with
valid patterns that has not been called off and whose files are all readable succeeds. The listed
files ascend in the order of their components, and the result accounts for them one by one: a file
whose time runs out gives a warning (`outcomeWithin`), and what comes of any other depends on the
label and the text of the file and on the context only (`fileOutcome`). Without a limit no time runs
out, and with one a clock that is late from the start leaves no time for a file with usages.

Hence the same file in another store, whatever the other files there and their clocks, has the same
entry and the same usages with the same issues, as long as its time runs out in both scans or in
neither; and files of different components may be written in any order. -/
theorem scan_isolates_files (hcancelled : ctx.cancelled = false)
    (hincludes : readPatterns ctx.includes = .ok includes)
    (hexcludes : readPatterns ctx.excludes = .ok excludes) (files : List (Path × String))
    (hreadable : ∀ f ∈ (MemoryStore.ofList files).selected root includes excludes,
      Readable ctx (clocks f.path) (fileLabel root f.path) f.text)
    (projectPath timestamp : String) :
    ∃ (listed : List StoredFile) (r : ScanResult),
      (MemoryStore.ofList files).list root ctx.includes ctx.excludes =
        .ok (listed.map (·.path)) ∧
      (∀ f ∈ listed, (MemoryStore.ofList files).read f.path = .ok f.text) ∧
      listed.Pairwise (fun f g => componentsLt f.path.components g.path.components = true) ∧
      (MemoryStore.ofList files).scan ctx clocks root projectPath timestamp = .ok r ∧
      r.Accounts ctx clocks root listed ∧
      (ctx.options.maxMillis = 0 → ∀ f ∈ listed, late ctx clocks root f = false) ∧
      (ctx.options.maxMillis ≠ 0 → ∀ f ∈ listed, clocks f.path 0 = true →
        (fileOutcome ctx (fileLabel root f.path) f.text).usages ≠ [] →
          late ctx clocks root f = true) ∧
      (∀ (files' : List (Path × String)) (clocks' : Path → Clock)
        (projectPath' timestamp' : String) (r' : ScanResult),
        (MemoryStore.ofList files').scan ctx clocks' root projectPath' timestamp' = .ok r' →
        ∀ f ∈ listed, f ∈ (MemoryStore.ofList files').files →
          late ctx clocks' root f = late ctx clocks root f →
            r'.about (fileLabel root f.path) = r.about (fileLabel root f.path)) ∧
      (∀ (files' : List (Path × String)) (clocks' : Path → Clock) (timestamp' : String),
        files'.Perm files → files.Pairwise (fun f g => f.1.components ≠ g.1.components) →
        (∀ f ∈ listed, late ctx clocks' root f = late ctx clocks root f) →
          (MemoryStore.ofList files').scan ctx clocks' root projectPath timestamp' =
            .ok { r with timestamp := timestamp' }) := by
  have hok : (MemoryStore.ofList files).scan ctx clocks root projectPath timestamp =
      .ok (resultOf projectPath timestamp
        (((MemoryStore.ofList files).selected root includes excludes).map
          (storedOutcome ctx clocks root))) :=
    (scan_eq_ok_iff hcancelled hincludes hexcludes files).2 ⟨hreadable, rfl⟩
  refine ⟨_, _, MemoryStore.list_eq_ok _ _ hincludes hexcludes,
    fun f hf => MemoryStore.read_of_mem_selected hf,
    (MemoryStore.ascending_ofList files).filter _, hok,
    accounts_resultOf projectPath timestamp (pairwise_fileLabel_selected files),
    fun hlimit f _ => runsOut_of_unlimited hlimit _ _ _,
    fun hlimit f _ hlate husages => runsOut_of_usages_ne_nil hlimit hlate husages, ?_, ?_⟩
  · intro files' clocks' projectPath' timestamp' r' hr' f hf hf' hlate
    obtain ⟨_, rfl⟩ := (scan_eq_ok_iff hcancelled hincludes hexcludes files').1 hr'
    have hselected : f ∈ (MemoryStore.ofList files').selected root includes excludes :=
      List.mem_filter.2 ⟨hf', (List.mem_filter.1 hf).2⟩
    -- In both scans the file has the same outcome, and only its outcome is about its label.
    have houtcome : storedOutcome ctx clocks' root f = storedOutcome ctx clocks root f :=
      outcomeWithin_congr hlate
    rw [about_resultOf files' projectPath' timestamp' hselected,
      about_resultOf files projectPath timestamp hf, houtcome]
  · intro files' clocks' timestamp' hperm hdistinct hlate
    have houtcomes : ((MemoryStore.ofList files).selected root includes excludes).map
        (storedOutcome ctx clocks' root) =
          ((MemoryStore.ofList files).selected root includes excludes).map
            (storedOutcome ctx clocks root) :=
      List.map_congr_left fun f hf => outcomeWithin_congr (hlate f hf)
    rw [MemoryStore.ofList_eq_of_perm hperm hdistinct, scan_eq_ok_iff hcancelled hincludes
      hexcludes files, houtcomes]
    exact ⟨fun f hf => (readable_congr (hlate f hf)).2 (hreadable f hf), rfl⟩

end Scan

/-- A context with one pattern and a catalog without components. -/
def bareContext : ScanContext where
  catalog := ⟨"none", "va-", "1", {}, {}⟩
  options := {}
  includes := ["*.jsx"]
  excludes := []

/-- The pattern of the context. -/
def jsxPattern : Glob.Pattern := [.sequence, .char '.', .char 'j', .char 's', .char 'x']

/-- The patterns of the context can be read. -/
theorem readPatterns_bareContext :
    readPatterns bareContext.includes = .ok [jsxPattern] ∧
      readPatterns bareContext.excludes = .ok [] := by
  have hexpand : expandAll bareContext.includes = ["*.jsx"] := by decide +kernel
  refine ⟨?_, rfl⟩
  rw [readPatterns, hexpand]
  rfl

/-- A file with a component, and a binary file that comes before it in the order of paths. -/
def twoFiles : List (Path × String) :=
  [(⟨"/p/b.jsx"⟩, "<VaAlert/>"), (⟨"/p/a.jsx"⟩, "\x00")]

theorem selected_twoFiles :
    (MemoryStore.ofList twoFiles).selected ⟨"/p"⟩ [jsxPattern] [] =
      [⟨⟨"/p/a.jsx"⟩, "\x00"⟩, ⟨⟨"/p/b.jsx"⟩, "<VaAlert/>"⟩] := by
  decide +kernel

/-- The usage in the first of the two files. -/
def loneAlert : Usage :=
  { componentName := "va-alert", tag := "VaAlert", filePath := "b.jsx", lineNumber := 1,
    column := 1 }

/-- The file with the component has this usage and no other. -/
theorem extract_loneAlert :
    extract bareContext.options (fileLabel ⟨"/p"⟩ ⟨"/p/b.jsx"⟩) "<VaAlert/>" = .ok [loneAlert] := by
  have hlabel : fileLabel ⟨"/p"⟩ ⟨"/p/b.jsx"⟩ = "b.jsx" := by decide +kernel
  have hdialect : Dialect.ofPath ⟨"b.jsx"⟩ = .script true := by decide +kernel
  have hscan : scanText {} (.script true) "<VaAlert/>".toList =
      .ok [⟨"VaAlert", "va-alert", 0, 10, {}, false⟩] := rfl
  have hsites := findSites_eq_reverse (by decide +kernel) (by decide +kernel) hscan
  rw [hlabel, extract, hdialect]
  exact (congrArg (Except.map _) hsites).trans rfl

/-- Neither file ends a scan, whatever the clocks. -/
theorem readable_twoFiles (clocks : Path → Clock) :
    ∀ f ∈ (MemoryStore.ofList twoFiles).selected ⟨"/p"⟩ [jsxPattern] [],
      Readable bareContext (clocks f.path) (fileLabel ⟨"/p"⟩ f.path) f.text := by
  rw [selected_twoFiles]
  intro f hf
  refine readable_of_extract ?_
  rcases List.mem_cons.1 hf with rfl | hf
  · have hbinary : extract bareContext.options (fileLabel ⟨"/p"⟩ ⟨"/p/a.jsx"⟩) "\x00" =
        .error .binary := rfl
    exact fun h => nomatch hbinary.symm.trans h
  · rw [List.mem_singleton.1 hf]
    exact fun h => nomatch extract_loneAlert.symm.trans h

/-- Clocks that are late at every look but the first few. -/
def lateAfter (n : Nat) : Path → Clock := fun _ looks => n ≤ looks

/-- The binary file is not scanned for sites, so that no clock is looked at. -/
private theorem scan_twoFiles_late :
    (MemoryStore.ofList twoFiles).scan bareContext (lateAfter 0) ⟨"/p"⟩ "/p" "now" =
      .ok (.new "/p" [] []
        [⟨"a.jsx", "file looks binary (contains NUL bytes)"⟩,
          ⟨"b.jsx", "extraction exceeded 2000 ms"⟩] "now") := by
  obtain ⟨hincludes, hexcludes⟩ := readPatterns_bareContext
  have hscan := (scan_eq_ok_iff rfl hincludes hexcludes twoFiles).2
    ⟨readable_twoFiles (lateAfter 0), (rfl : resultOf "/p" "now" _ = _)⟩
  have hbinary : runsOut bareContext.options (lateAfter 0 ⟨"/p/a.jsx"⟩)
      (fileLabel ⟨"/p"⟩ ⟨"/p/a.jsx"⟩) "\x00" = false := by decide +kernel
  have hlate : runsOut bareContext.options (lateAfter 0 ⟨"/p/b.jsx"⟩)
      (fileLabel ⟨"/p"⟩ ⟨"/p/b.jsx"⟩) "<VaAlert/>" = true := by decide +kernel
  rw [hscan, selected_twoFiles]
  simp only [List.map_cons, List.map_nil, storedOutcome, outcomeWithin, hbinary, hlate]
  rfl

/-- Two files written in either order, one of them binary: the listing is in the order of paths, and
only the timestamp differs. The one look that the other file takes is in time, and what the clocks
would say later does not matter. When they are late from the start, that file is skipped too. -/
theorem scan_isolates_files_two :
    ∃ (listed : List StoredFile) (r : ScanResult),
      (MemoryStore.ofList twoFiles).list ⟨"/p"⟩ bareContext.includes bareContext.excludes =
        .ok (listed.map (·.path)) ∧
      listed = [⟨⟨"/p/a.jsx"⟩, "\x00"⟩, ⟨⟨"/p/b.jsx"⟩, "<VaAlert/>"⟩] ∧
      (MemoryStore.ofList twoFiles).scan bareContext (lateAfter 1) ⟨"/p"⟩ "/p" "now" = .ok r ∧
      r.Accounts bareContext (lateAfter 1) ⟨"/p"⟩ listed ∧
      (MemoryStore.ofList twoFiles.reverse).scan bareContext (lateAfter 2) ⟨"/p"⟩ "/p" "later" =
        .ok { r with timestamp := "later" } ∧
      (MemoryStore.ofList twoFiles).scan bareContext (lateAfter 0) ⟨"/p"⟩ "/p" "now" =
        .ok (.new "/p" [] []
          [⟨"a.jsx", "file looks binary (contains NUL bytes)"⟩,
            ⟨"b.jsx", "extraction exceeded 2000 ms"⟩] "now") := by
  obtain ⟨hincludes, hexcludes⟩ := readPatterns_bareContext
  have hlist := MemoryStore.list_eq_ok (MemoryStore.ofList twoFiles) ⟨"/p"⟩ hincludes hexcludes
  rw [selected_twoFiles] at hlist
  obtain ⟨listed, r, hlisted, hreads, -, hscan, haccounts, -, -, -, hperm⟩ :=
    scan_isolates_files rfl hincludes hexcludes twoFiles (readable_twoFiles (lateAfter 1)) "/p"
      "now"
  have hpaths := Except.ok.inj (hlisted.symm.trans hlist)
  obtain rfl := eq_of_map_path hpaths hreads (by
    rw [← selected_twoFiles]
    exact fun f hf => MemoryStore.read_of_mem_selected hf)
  refine ⟨_, r, hlisted, rfl, hscan, haccounts, ?_, scan_twoFiles_late⟩
  refine hperm _ (lateAfter 2) "later" (List.reverse_perm twoFiles) (by decide +kernel) ?_
  decide +kernel

end ComponentAudit
