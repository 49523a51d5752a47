import ComponentAudit.Proofs.Path.Components
import ComponentAudit.Store.Memory

/-!
# Stores in memory

A store that was written file by file lists its files in strictly ascending order of their
components, so no file is there twice. Two facts follow: a stored file is read back under its path,
and the order in which files of different components are written does not matter.
-/

namespace ComponentAudit.MemoryStore

/-- The files ascend strictly in the order of their components. -/
def Ascending (files : List StoredFile) : Prop :=
  files.Pairwise fun f g => componentsLt f.path.components g.path.components = true

/-- Files in ascending order have different components. -/
theorem Ascending.pairwise_ne {files : List StoredFile} (h : Ascending files) :
    files.Pairwise fun f g => f.path.components ≠ g.path.components := by
  refine h.imp fun {f g} hlt heq => ?_
  rw [heq, componentsLt_irrefl] at hlt
  cases hlt

/-! ### Writing -/

/-- A file after writing has the components of the one written or was there before. -/
theorem components_of_mem_insertFile {f g : StoredFile} {files : List StoredFile}
    (h : g ∈ insertFile f files) : g.path.components = f.path.components ∨ g ∈ files := by
  induction files with
  | nil => exact .inl (by rw [List.mem_singleton.1 h])
  | cons a rest ih =>
    rw [insertFile] at h
    split at h
    · next hsame =>
      rcases List.mem_cons.1 h with rfl | h
      · exact .inl hsame.symm
      · exact .inr (List.mem_cons_of_mem _ h)
    · split at h
      · rcases List.mem_cons.1 h with rfl | h
        · exact .inl rfl
        · exact .inr h
      · rcases List.mem_cons.1 h with rfl | h
        · exact .inr List.mem_cons_self
        · exact (ih h).imp_right (List.mem_cons_of_mem _)

/-- A write keeps the files in order. -/
theorem ascending_insertFile (f : StoredFile) {files : List StoredFile} (h : Ascending files) :
    Ascending (insertFile f files) := by
  induction files with
  | nil => exact List.pairwise_singleton _ _
  | cons a rest ih =>
    obtain ⟨hhead, htail⟩ := List.pairwise_cons.1 h
    rw [insertFile]
    split
    · exact List.pairwise_cons.2 ⟨hhead, htail⟩
    · next hne =>
      split
      · next hlt =>
        refine List.pairwise_cons.2 ⟨fun g hg => ?_, h⟩
        rcases List.mem_cons.1 hg with rfl | hg
        · exact hlt
        · exact componentsLt_trans hlt (hhead g hg)
      · next hnlt =>
        refine List.pairwise_cons.2 ⟨fun g hg => ?_, ih htail⟩
        rcases components_of_mem_insertFile hg with hsame | hg
        · rw [hsame]
          exact (componentsLt_or_of_ne hne).resolve_left hnlt
        · exact hhead g hg

/-- A store that was written file by file is ascending. -/
theorem ascending_ofList (files : List (Path × String)) : Ascending (ofList files).files := by
  have hfold : ∀ (files : List (Path × String)) (s : MemoryStore), Ascending s.files →
      Ascending (files.foldl (fun s f => s.insert f.1 f.2) s).files := by
    intro files
    induction files with
    | nil => exact fun _ h => h
    | cons f files ih => exact fun s h => ih _ (ascending_insertFile ⟨f.1, f.2⟩ h)
  exact hfold files {} List.Pairwise.nil

/-! ### The order of writing -/

/-- A write of a new file adds it. -/
theorem insertFile_perm {f : StoredFile} {files : List StoredFile}
    (h : ∀ g ∈ files, g.path.components ≠ f.path.components) :
    (insertFile f files).Perm (f :: files) := by
  induction files with
  | nil => exact List.Perm.refl _
  | cons a rest ih =>
    rw [insertFile, if_neg (Ne.symm (h a List.mem_cons_self))]
    split
    · exact List.Perm.refl _
    · have hrest := ih fun g hg => h g (List.mem_cons_of_mem _ hg)
      exact (hrest.cons a).trans (List.Perm.swap f a rest)

/-- The files of a store are those that were written, when no components were written twice. -/
theorem ofList_perm {files : List (Path × String)}
    (h : files.Pairwise fun f g => f.1.components ≠ g.1.components) :
    (ofList files).files.Perm (files.map fun f => ⟨f.1, f.2⟩) := by
  have hfold : ∀ (files : List (Path × String)) (s : MemoryStore),
      files.Pairwise (fun f g => f.1.components ≠ g.1.components) →
      (∀ f ∈ files, ∀ g ∈ s.files, g.path.components ≠ f.1.components) →
      (files.foldl (fun s f => s.insert f.1 f.2) s).files.Perm
        (files.map (fun f => ⟨f.1, f.2⟩) ++ s.files) := by
    intro files
    induction files with
    | nil => exact fun _ _ _ => List.Perm.refl _
    | cons f files ih =>
      intro s hne hs
      obtain ⟨hhead, htail⟩ := List.pairwise_cons.1 hne
      have hperm : (s.insert f.1 f.2).files.Perm (⟨f.1, f.2⟩ :: s.files) :=
        insertFile_perm (hs f List.mem_cons_self)
      refine (ih _ htail fun f' hf' g hg => ?_).trans ?_
      · rcases List.mem_cons.1 (hperm.mem_iff.1 hg) with rfl | hg
        · exact hhead f' hf'
        · exact hs f' (List.mem_cons_of_mem _ hf') g hg
      · exact (hperm.append_left _).trans List.perm_middle
  have hperm := hfold files {} h fun _ _ _ hg => absurd hg List.not_mem_nil
  rwa [List.append_nil] at hperm

/-- Files of different components may be written in any order. -/
theorem ofList_eq_of_perm {files files' : List (Path × String)} (hperm : files'.Perm files)
    (h : files.Pairwise fun f g => f.1.components ≠ g.1.components) :
    ofList files' = ofList files := by
  have h' : files'.Pairwise fun f g => f.1.components ≠ g.1.components :=
    (hperm.pairwise_iff fun hne => Ne.symm hne).2 h
  have hfiles : (ofList files').files.Perm (ofList files).files :=
    (ofList_perm h').trans ((hperm.map _).trans (ofList_perm h).symm)
  have heq : (ofList files').files = (ofList files).files := by
    refine List.Perm.eq_of_pairwise (fun a b _ _ hab hba => ?_) (ascending_ofList files')
      (ascending_ofList files) hfiles
    have := componentsLt_trans hab hba
    rw [componentsLt_irrefl] at this
    cases this
  exact congrArg MemoryStore.mk heq

/-! ### Reading -/

/-- Of files with different components, a search by the components of one finds that one. -/
theorem find?_components {files : List StoredFile}
    (h : files.Pairwise fun f g => f.path.components ≠ g.path.components) {f : StoredFile}
    (hf : f ∈ files) :
    files.find? (fun g => g.path.components = f.path.components) = some f := by
  induction files with
  | nil => exact absurd hf List.not_mem_nil
  | cons a rest ih =>
    obtain ⟨hhead, htail⟩ := List.pairwise_cons.1 h
    rcases List.mem_cons.1 hf with rfl | hf
    · exact List.find?_cons_of_pos (by simp)
    · rw [List.find?_cons_of_neg (by simpa using hhead f hf), ih htail hf]

/-- A stored file is read back under its path. -/
theorem read_path {s : MemoryStore} (h : Ascending s.files) {f : StoredFile} (hf : f ∈ s.files) :
    s.read f.path = .ok f.text := by
  rw [read, find?_components h.pairwise_ne hf]

/-! ### Listing -/

/-- The files below a root that the patterns select, in the order of their components. -/
def selected (s : MemoryStore) (root : Path) (includes excludes : List Glob.Pattern) :
    List StoredFile :=
  s.files.filter fun f => selects root includes excludes f.path

/-- A listing with valid patterns gives the files they select. -/
theorem list_eq_ok (s : MemoryStore) (root : Path) {includes excludes : List String}
    {includePatterns excludePatterns : List Glob.Pattern}
    (hincludes : readPatterns includes = .ok includePatterns)
    (hexcludes : readPatterns excludes = .ok excludePatterns) :
    s.list root includes excludes =
      .ok ((s.selected root includePatterns excludePatterns).map (·.path)) := by
  rw [list, hincludes, hexcludes, selected]
  simp only [List.filter_map]
  rfl

/-- A listing that succeeds has valid patterns. -/
theorem exists_patterns_of_list {s : MemoryStore} {root : Path} {includes excludes : List String}
    {paths : List Path} (h : s.list root includes excludes = .ok paths) :
    ∃ includePatterns excludePatterns, readPatterns includes = .ok includePatterns ∧
      readPatterns excludes = .ok excludePatterns ∧
        paths = (s.selected root includePatterns excludePatterns).map (·.path) := by
  cases hincludes : readPatterns includes with
  | error e =>
    rw [list, hincludes] at h
    cases h
  | ok includePatterns =>
    cases hexcludes : readPatterns excludes with
    | error e =>
      rw [list, hincludes, hexcludes] at h
      cases h
    | ok excludePatterns =>
      rw [list_eq_ok s root hincludes hexcludes, Except.ok.injEq] at h
      exact ⟨includePatterns, excludePatterns, rfl, rfl, h.symm⟩

/-- A selected file can be read. -/
theorem read_of_mem_selected {files : List (Path × String)} {root : Path}
    {includes excludes : List Glob.Pattern} {f : StoredFile}
    (h : f ∈ (ofList files).selected root includes excludes) :
    (ofList files).read f.path = .ok f.text :=
  read_path (ascending_ofList files) (List.mem_filter.1 h).1

/-- A selected file lies below the root. -/
theorem isPrefix_of_mem_selected {s : MemoryStore} {root : Path}
    {includes excludes : List Glob.Pattern} {f : StoredFile}
    (h : f ∈ s.selected root includes excludes) : root.components <+: f.path.components := by
  have hselects := (List.mem_filter.1 h).2
  refine Path.isPrefix_of_isSome_below? ?_
  cases hbelow : f.path.below? root with
  | none => simp [selects, hbelow] at hselects
  | some rest => rfl

end ComponentAudit.MemoryStore
