import ComponentAudit.Catalog.Resolve

/-!
# What a resolved catalog is made of

A resolved catalog says nothing that its file does not say: each of its components is declared by a
version of the file, and its vocabulary is that of the file (`CatalogFile.declares_of_resolve`). The
chain of versions is made of declared ones, and while they are added the table of components takes
in declared components only.
-/

namespace ComponentAudit

/-- What is looked up is an entry. -/
theorem mem_of_lookup_eq_some {β : Type} {l : List (String × β)} {k : String} {v : β}
    (h : l.lookup k = some v) : (k, v) ∈ l := by
  obtain ⟨before, after, rfl, -⟩ := List.lookup_eq_some_iff.1 h
  exact List.mem_append_right _ List.mem_cons_self

/-- What each step of a fold keeps, the fold keeps. -/
theorem foldlM_preserves {ε α β : Type} {P : β → Prop} {f : β → α → Except ε β} {l : List α}
    (hstep : ∀ a ∈ l, ∀ {b b'}, P b → f b a = .ok b' → P b') {b b' : β} (hb : P b)
    (h : l.foldlM f b = .ok b') : P b' := by
  induction l generalizing b with
  | nil =>
    cases h
    exact hb
  | cons a l ih =>
    rw [List.foldlM_cons] at h
    cases hf : f b a with
    | error e => simp [hf, bind, Except.bind] at h
    | ok c =>
      rw [hf] at h
      exact ih (fun a ha => hstep a (List.mem_cons_of_mem _ ha))
        (hstep a List.mem_cons_self hb hf) h

/-- The versions of a chain are among those that it was looked for in. -/
theorem subset_of_followBases {declared : String → Bool} {start last name : String}
    {remaining chain : List NamedVersion}
    (h : followBases declared start last name remaining = .ok chain) : chain ⊆ remaining := by
  fun_induction followBases declared start last name remaining generalizing chain with
  | case1 => cases h
  | case2 => cases h
  | case3 last name remaining v hv =>
    cases h
    exact List.cons_subset.2 ⟨mem_of_lookup_eq_some hv, List.nil_subset _⟩
  | case4 last name remaining v hv base hbase ih =>
    cases hrest : followBases declared start name base (versionsWithout name remaining) with
    | error e => simp [hrest, Except.map] at h
    | ok rest =>
      rw [hrest] at h
      cases h
      have hbehind : rest ⊆ remaining := List.Subset.trans (ih hrest) List.filter_sublist.subset
      exact List.cons_subset.2 ⟨mem_of_lookup_eq_some hv, hbehind⟩

namespace CatalogFile

/-- A version of the file declares the component. -/
def Declares (f : CatalogFile) (spec : ComponentSpec) : Prop :=
  ∃ v ∈ f.versions.entries, spec ∈ v.2.components

/-- The file declares all components of the table. -/
def DeclaresAll (f : CatalogFile) (components : NameTable ComponentSpec) : Prop :=
  ∀ spec ∈ components.values, f.Declares spec

variable {f : CatalogFile} {components components' : NameTable ComponentSpec}

/-- A component that is added is declared. -/
theorem DeclaresAll.addComponent (hall : f.DeclaresAll components) {version : String}
    {c : ComponentSpec} (hc : f.Declares c)
    (h : f.addComponent version components c = .ok components') : f.DeclaresAll components' := by
  rw [CatalogFile.addComponent] at h
  split at h
  · cases h
    intro spec hspec
    obtain ⟨e, he, rfl⟩ := List.mem_map.1 hspec
    rcases NameTable.mem_insertEntry he with rfl | he
    · exact hc
    · exact hall e.2 (List.mem_map_of_mem he)
  · cases h

/-- So are those of a version. -/
theorem DeclaresAll.addVersion (hall : f.DeclaresAll components) {v : NamedVersion}
    (hv : v ∈ f.versions.entries) (h : f.addVersion components v = .ok components') :
    f.DeclaresAll components' :=
  foldlM_preserves (fun _ hc _ _ hall hadd => DeclaresAll.addComponent hall ⟨v, hv, hc⟩ hadd) hall h

/-- A resolved catalog is made of what the file declares. -/
theorem declares_of_resolve {requested : String} {catalog : Catalog}
    (h : f.resolve requested = .ok catalog) :
    catalog.access = f.access ∧ ∀ spec ∈ catalog.componentList, f.Declares spec := by
  rw [resolve] at h
  split at h
  · cases h
  · split at h
    · cases h
    · next chain hchain =>
      split at h
      · cases h
      · next components hcomponents =>
        cases h
        have hempty : f.DeclaresAll {} := fun _ hspec => absurd hspec List.not_mem_nil
        refine ⟨rfl, foldlM_preserves (fun v hv _ _ hall hadd => ?_) hempty hcomponents⟩
        have hv : v ∈ f.versions.entries := subset_of_followBases hchain (List.mem_reverse.1 hv)
        exact DeclaresAll.addVersion hall hv hadd

end CatalogFile

end ComponentAudit
