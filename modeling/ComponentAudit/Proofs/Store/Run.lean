import ComponentAudit.Proofs.Glob.Matching
import ComponentAudit.Proofs.Path.Below
import ComponentAudit.Proofs.Store.Memory
import Mathlib.Data.List.Induction

/-!
# Runs of a store

A store that is written, read and listed over and over behaves as a map on paths by their
components. What an operation answers depends on the writes before it and on nothing else
(`after_eq_ofList`), and those determine the file under a path: it is spelled as in the first write
of its components and has the text of the last one (`find?_ofList`).

The main statement is `store_answers`.
-/

namespace ComponentAudit

/-- An operation on a store. -/
inductive StoreOperation where
  | insert (path : Path) (text : String)
  | read (path : Path)
  | list (root : Path) (includes excludes : List String)
  deriving DecidableEq, Repr

/-- What an operation answers. -/
inductive StoreAnswer where
  | done
  | text (found : Except AuditError String)
  | paths (found : Except AuditError (List Path))

/-- The paths of an answer, if it has any. -/
def StoreAnswer.paths? : StoreAnswer → Option (List Path)
  | .paths (.ok found) => some found
  | _ => none

/-- What the operations write, in order. -/
def writesOf (operations : List StoreOperation) : List (Path × String) :=
  operations.filterMap fun
    | .insert path text => some (path, text)
    | .read _ => none
    | .list .. => none

namespace MemoryStore

/-- The store after an operation, and the answer. -/
def step (s : MemoryStore) : StoreOperation → MemoryStore × StoreAnswer
  | .insert path text => (s.insert path text, .done)
  | .read path => (s, .text (s.read path))
  | .list root includes excludes => (s, .paths (s.list root includes excludes))

/-- The store after operations. -/
def after (s : MemoryStore) (operations : List StoreOperation) : MemoryStore :=
  operations.foldl (fun s o => (s.step o).1) s

/-- The answers to operations, one after the other. -/
def answers (s : MemoryStore) : List StoreOperation → List StoreAnswer
  | [] => []
  | o :: operations => (s.step o).2 :: (s.step o).1.answers operations

/-! ### One operation after the other -/

/-- Every operation is answered. -/
theorem length_answers (s : MemoryStore) (operations : List StoreOperation) :
    (s.answers operations).length = operations.length := by
  induction operations generalizing s with
  | nil => rfl
  | cons o operations ih => rw [answers, List.length_cons, ih, List.length_cons]

/-- Later operations are answered from the store that the earlier ones leave. -/
theorem answers_append (s : MemoryStore) (before operations : List StoreOperation) :
    s.answers (before ++ operations) = s.answers before ++ (s.after before).answers operations := by
  induction before generalizing s with
  | nil => rfl
  | cons o before ih => rw [List.cons_append, answers, ih]; rfl

/-- Only writes change a store. -/
theorem after_eq_ofList (operations : List StoreOperation) :
    after {} operations = ofList (writesOf operations) := by
  have hfold : ∀ (operations : List StoreOperation) (s : MemoryStore),
      s.after operations = (writesOf operations).foldl (fun s f => s.insert f.1 f.2) s := by
    intro operations
    induction operations with
    | nil => exact fun _ => rfl
    | cons o operations ih => intro s; cases o <;> exact ih _
  exact hfold operations {}

/-! ### The file under a path -/

/-- The text of the last write of a path. -/
def lastText? (writes : List (Path × String)) (q : Path) : Option String :=
  (writes.reverse.find? fun w => w.1.components = q.components).map Prod.snd

/-- How a path is spelled in the first write of it. -/
def firstSpelling? (writes : List (Path × String)) (q : Path) : Option Path :=
  (writes.find? fun w => w.1.components = q.components).map Prod.fst

/-- The last write to the components of a path counts. -/
theorem lastText?_concat (writes : List (Path × String)) (w : Path × String) (q : Path) :
    lastText? (writes ++ [w]) q =
      if w.1.components = q.components then some w.2 else lastText? writes q := by
  rw [lastText?, List.reverse_concat, List.find?_cons]
  by_cases h : w.1.components = q.components <;> simp [h, lastText?]

/-- The first spelling of the components stays. -/
theorem firstSpelling?_concat (writes : List (Path × String)) (w : Path × String) (q : Path) :
    firstSpelling? (writes ++ [w]) q =
      (firstSpelling? writes q).or (if w.1.components = q.components then some w.1 else none) := by
  rw [firstSpelling?, List.find?_append, List.find?_singleton]
  by_cases h : w.1.components = q.components <;>
    cases hfind : writes.find? fun w => w.1.components = q.components <;>
      simp [h, firstSpelling?, hfind]

/-- What has been written has a first spelling and a last text. -/
theorem isSome_firstSpelling?_iff {writes : List (Path × String)} {q : Path} :
    (firstSpelling? writes q).isSome ↔ (lastText? writes q).isSome := by
  simp [firstSpelling?, lastText?]

/-- Writing a file changes what is found under its components. -/
theorem find?_insertFile {files : List StoredFile} (h : Ascending files) (f : StoredFile)
    (cs : List PathComponent) :
    (insertFile f files).find? (fun g => g.path.components = cs) =
      if f.path.components = cs then
        some ⟨((files.find? fun g => g.path.components = cs).map (·.path)).getD f.path, f.text⟩
      else files.find? fun g => g.path.components = cs := by
  induction files with
  | nil => by_cases hf : f.path.components = cs <;> simp [insertFile, hf]
  | cons g rest ih =>
    obtain ⟨hhead, htail⟩ := List.pairwise_cons.1 h
    rw [insertFile]
    split
    · next hsame => by_cases hg : g.path.components = cs <;> simp [hsame, hg]
    · next hne =>
      split
      · next hlt =>
        by_cases hf : f.path.components = cs
        · -- The files behind are all greater, so none of them has the components.
          have hnone : (g :: rest).find? (fun g => g.path.components = cs) = none := by
            refine List.find?_eq_none.2 fun a ha hcs => ?_
            have hlta : componentsLt f.path.components a.path.components = true := by
              rcases List.mem_cons.1 ha with rfl | ha
              · exact hlt
              · exact componentsLt_trans hlt (hhead a ha)
            rw [hf, ← of_decide_eq_true hcs, componentsLt_irrefl] at hlta
            cases hlta
          rw [hnone, List.find?_cons_of_pos (by simpa using hf), if_pos hf]
          rfl
        · rw [List.find?_cons_of_neg (by simpa using hf), if_neg hf]
      · by_cases hg : g.path.components = cs
        · have hf : ¬ f.path.components = cs := fun hf => hne (hf.trans hg.symm)
          rw [if_neg hf, List.find?_cons_of_pos (by simpa using hg),
            List.find?_cons_of_pos (by simpa using hg)]
        · rw [List.find?_cons_of_neg (by simpa using hg), ih htail,
            List.find?_cons_of_neg (by simpa using hg)]

/-- The file under a path is spelled as in the first write of the path and has the text of the
last one. -/
theorem find?_ofList (writes : List (Path × String)) (q : Path) :
    (ofList writes).files.find? (fun f => f.path.components = q.components) =
      (firstSpelling? writes q).bind fun p => (lastText? writes q).map fun text => ⟨p, text⟩ := by
  induction writes using List.reverseRecOn with
  | nil => rfl
  | append_singleton writes w ih =>
    have hconcat : ofList (writes ++ [w]) = (ofList writes).insert w.1 w.2 := by
      rw [ofList, List.foldl_append]
      rfl
    have hsome := @isSome_firstSpelling?_iff writes q
    rw [hconcat, insert, find?_insertFile (ascending_ofList writes), ih, lastText?_concat,
      firstSpelling?_concat]
    split
    · cases hfirst : firstSpelling? writes q with
      | none => rfl
      | some p =>
        obtain ⟨text, htext⟩ := Option.isSome_iff_exists.1 (hsome.1 (by rw [hfirst]; rfl))
        rw [htext]
        rfl
    · rw [Option.or_none]

/-- A path is read as the text of its last write. -/
theorem read_ofList (writes : List (Path × String)) (q : Path) :
    (ofList writes).read q =
      match lastText? writes q with
      | some text => .ok text
      | none => .error (.unreadable q .notStored) := by
  have hsome := @isSome_firstSpelling?_iff writes q
  rw [read, find?_ofList]
  cases hfirst : firstSpelling? writes q with
  | none =>
    have hlast : lastText? writes q = none := by
      rw [hfirst] at hsome
      exact Option.not_isSome_iff_eq_none.1 fun h => Bool.false_ne_true (hsome.2 h)
    rw [hlast]
    rfl
  | some p =>
    obtain ⟨text, htext⟩ := Option.isSome_iff_exists.1 (hsome.1 (by rw [hfirst]; rfl))
    rw [htext]
    rfl

/-- The files of a store are the written paths in their first spelling with their last text. -/
theorem mem_files_ofList {writes : List (Path × String)} {f : StoredFile} :
    f ∈ (ofList writes).files ↔
      firstSpelling? writes f.path = some f.path ∧ lastText? writes f.path = some f.text := by
  have hfind := find?_ofList writes f.path
  constructor
  · intro hf
    rw [find?_components (ascending_ofList writes).pairwise_ne hf] at hfind
    obtain ⟨p, hp, htext⟩ := Option.bind_eq_some_iff.1 hfind.symm
    obtain ⟨text, htext, rfl⟩ := Option.map_eq_some_iff.1 htext
    exact ⟨hp, htext⟩
  · rintro ⟨hfirst, hlast⟩
    rw [hfirst, hlast] at hfind
    exact List.mem_of_find?_eq_some hfind

/-! ### Patterns -/

/-- The text is a pattern that the path as written fits. -/
def PatternMatches (pattern : String) (p : Path) : Prop :=
  ∃ tokens, Glob.Pattern.read pattern.toList = .ok tokens ∧ tokens.Fits p.text.toList

/-- Every alternative of the patterns can be read. -/
def ValidPatterns (patterns : List String) : Prop :=
  ∀ pattern ∈ expandAll patterns, ∃ tokens, Glob.Pattern.read pattern.toList = .ok tokens

private theorem exists_mapM_readPattern {texts : List String}
    (h : ∀ text ∈ texts, ∃ tokens, Glob.Pattern.read text.toList = .ok tokens) :
    ∃ patterns, texts.mapM readPattern = .ok patterns ∧
      ∀ p, matchesAny patterns p = true ↔ ∃ text ∈ texts, PatternMatches text p := by
  induction texts with
  | nil => exact ⟨[], rfl, fun p => by simp [matchesAny]⟩
  | cons text texts ih =>
    obtain ⟨htext, htexts⟩ := List.forall_mem_cons.1 h
    obtain ⟨tokens, htokens⟩ := htext
    obtain ⟨patterns, hpatterns, hmatches⟩ := ih htexts
    have hread : readPattern text = .ok tokens := by rw [readPattern, htokens]
    refine ⟨tokens :: patterns, by rw [List.mapM_cons, hread, hpatterns]; rfl, fun p => ?_⟩
    have hhead : tokens.matches p.text.toList = true ↔ PatternMatches text p := by
      rw [Glob.Pattern.matches_iff]
      refine ⟨fun hp => ⟨tokens, htokens, hp⟩, ?_⟩
      rintro ⟨tokens', htokens', hp⟩
      cases htokens.symm.trans htokens'
      exact hp
    simp only [matchesAny, List.any_cons, Bool.or_eq_true, hhead, List.mem_cons, exists_eq_or_imp]
    exact or_congr_right (hmatches p)

/-- Valid patterns match what one of their alternatives matches. -/
theorem exists_readPatterns {texts : List String} (h : ValidPatterns texts) :
    ∃ patterns, readPatterns texts = .ok patterns ∧
      ∀ p, matchesAny patterns p = true ↔ ∃ text ∈ expandAll texts, PatternMatches text p :=
  exists_mapM_readPattern h

/-! ### Listings -/

/-- The path lies below the root, and what follows the root is matched by some alternative to
include and by none to exclude. -/
def Selected (root : Path) (includes excludes : List String) (p : Path) : Prop :=
  ∃ rest : Path, p.below? root = some rest ∧ root.components <+: p.components ∧
    rest.components = p.components.drop root.components.length ∧
    (∃ pattern ∈ expandAll includes, PatternMatches pattern rest) ∧
    ∀ pattern ∈ expandAll excludes, ¬ PatternMatches pattern rest

/-- What a listing after some writes holds. -/
structure Listing (writes : List (Path × String)) (root : Path) (includes excludes : List String)
    (paths : List Path) : Prop where
  ascending : paths.Pairwise fun p q => componentsLt p.components q.components = true
  distinct : paths.Pairwise fun p q => p.components ≠ q.components
  /-- The listed paths are the selected ones that were written, as they were first spelled. -/
  mem_iff : ∀ p, p ∈ paths ↔
    firstSpelling? writes p = some p ∧ Selected root includes excludes p
  /-- Every listed path can be read. -/
  readable : ∀ p ∈ paths, ∃ text, (ofList writes).read p = .ok text

/-- A file is selected exactly when the patterns say so. -/
theorem selects_iff {includes excludes : List String} {includePatterns excludePatterns}
    (hincludes : ∀ p, matchesAny includePatterns p = true ↔
      ∃ text ∈ expandAll includes, PatternMatches text p)
    (hexcludes : ∀ p, matchesAny excludePatterns p = true ↔
      ∃ text ∈ expandAll excludes, PatternMatches text p) (root p : Path) :
    selects root includePatterns excludePatterns p = true ↔ Selected root includes excludes p := by
  rw [selects, Option.any_eq_true]
  refine exists_congr fun rest => ?_
  rw [Bool.and_eq_true, Bool.not_eq_true', ← Bool.not_eq_true, hincludes, hexcludes]
  constructor
  · rintro ⟨hbelow, hmatch, hnot⟩
    exact ⟨hbelow, Path.isPrefix_of_isSome_below? (by rw [hbelow]; rfl),
      Path.components_below? hbelow, hmatch, fun text htext hp => hnot ⟨text, htext, hp⟩⟩
  · rintro ⟨hbelow, -, -, hmatch, hnot⟩
    refine ⟨hbelow, hmatch, ?_⟩
    rintro ⟨text, htext, hp⟩
    exact hnot text htext hp

/-- With valid patterns a store lists the written paths that are selected. -/
theorem exists_listing (writes : List (Path × String)) (root : Path)
    {includes excludes : List String} (hincludes : ValidPatterns includes)
    (hexcludes : ValidPatterns excludes) :
    ∃ paths, (ofList writes).list root includes excludes = .ok paths ∧
      Listing writes root includes excludes paths := by
  obtain ⟨includePatterns, hreadIncludes, hincluded⟩ := exists_readPatterns hincludes
  obtain ⟨excludePatterns, hreadExcludes, hexcluded⟩ := exists_readPatterns hexcludes
  have hselects := selects_iff hincluded hexcluded root
  have hascending := (ascending_ofList writes).filter
    fun f => selects root includePatterns excludePatterns f.path
  refine ⟨_, list_eq_ok _ root hreadIncludes hreadExcludes, List.pairwise_map.2 hascending,
    List.pairwise_map.2 (Ascending.pairwise_ne hascending), fun p => ?_, fun p hp => ?_⟩
  · rw [List.mem_map]
    constructor
    · rintro ⟨f, hf, rfl⟩
      obtain ⟨hfile, hselected⟩ := List.mem_filter.1 hf
      exact ⟨(mem_files_ofList.1 hfile).1, (hselects f.path).1 hselected⟩
    · rintro ⟨hfirst, hselected⟩
      obtain ⟨text, htext⟩ := Option.isSome_iff_exists.1
        (isSome_firstSpelling?_iff.1 (by rw [hfirst]; rfl))
      exact ⟨⟨p, text⟩, List.mem_filter.2 ⟨mem_files_ofList.2 ⟨hfirst, htext⟩,
        (hselects p).2 hselected⟩, rfl⟩
  · obtain ⟨f, hf, rfl⟩ := List.mem_map.1 hp
    exact ⟨f.text, read_of_mem_selected hf⟩

/-! ### Runs -/

/-- What an operation answers after some writes. -/
def Answers (writes : List (Path × String)) : StoreOperation → StoreAnswer → Prop
  | .insert _ _, answer => answer = .done
  | .read q, answer => answer = .text (match lastText? writes q with
      | some text => .ok text
      | none => .error (.unreadable q .notStored))
  | .list root includes excludes, answer => ValidPatterns includes → ValidPatterns excludes →
      ∃ paths, answer = .paths (.ok paths) ∧ Listing writes root includes excludes paths

/-- **A single operation** is answered by what has been written before. -/
theorem answers_step (writes : List (Path × String)) (o : StoreOperation) :
    Answers writes o ((ofList writes).step o).2 := by
  cases o with
  | insert path text => rfl
  | read q => exact congrArg StoreAnswer.text (read_ofList writes q)
  | list root includes excludes =>
    intro hincludes hexcludes
    obtain ⟨paths, hpaths, hlisting⟩ := exists_listing writes root hincludes hexcludes
    exact ⟨paths, congrArg StoreAnswer.paths hpaths, hlisting⟩

/-- **A store is a map on paths by their components.** In every run from the empty store, every
operation answers by the writes before it: a path is read as the text of the last write of its
components and is not stored if there is none, and with valid patterns a listing holds the written
paths that are selected, in the order of components and in their first spelling.

Repeated slashes, a `.` between slashes and a slash at the end of a path do not count, `..` does. -/
theorem store_answers (before operations : List StoreOperation) (o : StoreOperation) :
    (∃ answer, (answers {} (before ++ o :: operations))[before.length]? = some answer ∧
      Answers (writesOf before) o answer) ∧
    ∀ a b : String,
      Path.components ⟨a ++ "//" ++ b⟩ = Path.components ⟨a ++ "/" ++ b⟩ ∧
      Path.components ⟨a ++ "/./" ++ b⟩ = Path.components ⟨a ++ "/" ++ b⟩ ∧
      (a ≠ "" → Path.components ⟨a ++ "/"⟩ = Path.components ⟨a⟩) ∧
      Path.components ⟨a ++ "/../" ++ b⟩ ≠ Path.components ⟨a ++ "/" ++ b⟩ := by
  refine ⟨⟨_, ?_, answers_step (writesOf before) o⟩, fun a b => ⟨Path.components_slash_slash a b,
    Path.components_slash_dot_slash a b, Path.components_slash, fun heq => ?_⟩⟩
  · rw [answers_append, List.getElem?_append_right (Nat.le_of_eq (length_answers _ _)),
      length_answers, Nat.sub_self, after_eq_ofList]
    rfl
  · have hlength := Path.length_components_parent a b
    rw [heq] at hlength
    omega

/-- A run that writes a file under two spellings, and another file between them. -/
def spelledRun : List StoreOperation :=
  [.insert ⟨"/p//a.js"⟩ "1", .insert ⟨"/p/b.vue"⟩ "x", .insert ⟨"/p/./a.js"⟩ "2",
    .read ⟨"/p/../a.js"⟩]

/-- The alternatives of the patterns that select scripts and not the other file. -/
theorem validPatterns_scripts : ValidPatterns ["*.\x7bjs,vue\x7d"] ∧ ValidPatterns ["b*"] := by
  have hincludes : expandAll ["*.\x7bjs,vue\x7d"] = ["*.js", "*.vue"] := by decide +kernel
  have hexcludes : expandAll ["b*"] = ["b*"] := by decide +kernel
  rw [ValidPatterns, ValidPatterns, hincludes, hexcludes]
  simp only [List.forall_mem_cons, List.not_mem_nil, false_implies, implies_true, and_true]
  exact ⟨⟨⟨_, rfl⟩, ⟨_, rfl⟩⟩, ⟨_, rfl⟩⟩

/-- After the run the file is listed in its first spelling and has its last text, which a fourth
spelling reads. -/
theorem store_answers_spelled :
    (answers {} (spelledRun ++ [.read ⟨"/p/a.js/"⟩]))[4]? = some (.text (.ok "2")) ∧
      ∃ paths, (answers {} (spelledRun ++ [.list ⟨"/p"⟩ ["*.\x7bjs,vue\x7d"] ["b*"]]))[4]? =
          some (.paths (.ok paths)) ∧
        Listing (writesOf spelledRun) ⟨"/p"⟩ ["*.\x7bjs,vue\x7d"] ["b*"] paths ∧
          paths = [⟨"/p//a.js"⟩] := by
  obtain ⟨answer, hanswer, hread⟩ := (store_answers spelledRun [] (.read ⟨"/p/a.js/"⟩)).1
  obtain ⟨answer', hanswer', hlist⟩ :=
    (store_answers spelledRun [] (.list ⟨"/p"⟩ ["*.\x7bjs,vue\x7d"] ["b*"])).1
  obtain ⟨paths, rfl, hlisting⟩ := hlist validPatterns_scripts.1 validPatterns_scripts.2
  have hlast : lastText? (writesOf spelledRun) ⟨"/p/a.js/"⟩ = some "2" := by decide +kernel
  rw [Answers, hlast] at hread
  refine ⟨hanswer.trans (by rw [hread]), paths, hanswer', hlisting, ?_⟩
  have hrun : (answers {} (spelledRun ++ [.list ⟨"/p"⟩ ["*.\x7bjs,vue\x7d"] ["b*"]]))[4]?.bind
    StoreAnswer.paths? = some [⟨"/p//a.js"⟩] := by decide +kernel
  exact Option.some.inj ((congrArg (·.bind StoreAnswer.paths?) hanswer').symm.trans hrun)

end MemoryStore

end ComponentAudit
