import ComponentAudit.Proofs.Catalog.Resolution
import ComponentAudit.Proofs.NameTable
import ComponentAudit.Proofs.Text.ByteOrder
import Mathlib.Data.List.Nodup

/-!
# Catalogs along the chain of versions

A version may be based on another one, that one on a third, and a catalog file may say anything
about this: versions may be based on themselves by way of others, or on versions that do not exist.
`CatalogFile.behind` follows the bases without asking what they are, step by step. Nothing else is
needed to say what a resolved catalog is: its chain of versions is the sequence of steps
(`CatalogFile.IsChain`), and its components are for each name the last one in the nearest version
that has one (`CatalogFile.Flattens`).

The walk of `followBases` ends because it takes each version out of those that remain. That it
fails only for a reason is `exists_of_followBases_eq_error`: a version that does not remain was met
before or is not declared. While components are added, the first versions come first, so for the
lookup of a name the last ones come first (`get?_addChain`).

The main statement is `CatalogFile.resolve_follows_bases`.
-/

namespace ComponentAudit

/-- The last component of a name among those of a version. -/
def VersionSpec.last? (v : VersionSpec) (n : String) : Option ComponentSpec :=
  v.components.reverse.find? fun c => c.name = n

/-- A component of that name is among those of the version. -/
def VersionSpec.Names (v : VersionSpec) (n : String) : Prop := ∃ c ∈ v.components, c.name = n

/-- The last component of a name has that name. -/
theorem VersionSpec.name_of_last? {v : VersionSpec} {n : String} {c : ComponentSpec}
    (h : v.last? n = some c) : c ∈ v.components ∧ c.name = n :=
  ⟨List.mem_reverse.1 (List.mem_of_find?_eq_some h), by simpa using List.find?_some h⟩

/-- There is none exactly when the version does not name it. -/
theorem VersionSpec.last?_eq_none_iff {v : VersionSpec} {n : String} :
    v.last? n = none ↔ ¬ v.Names n := by
  simp [last?, Names]

namespace CatalogFile

/-! ### Following bases -/

/-- The version that many steps behind the given one, from a version to the one it is based on. -/
def behind (f : CatalogFile) : Nat → String → Option String
  | 0, name => some name
  | i + 1, name => ((f.versions.get? name).bind VersionSpec.base).bind (f.behind i)

/-- What the file says about the version that many steps behind the given one. -/
def versionBehind? (f : CatalogFile) (i : Nat) (name : String) : Option VersionSpec :=
  (f.behind i name).bind f.versions.get?

/-- Following bases comes to some version twice. -/
def Revisits (f : CatalogFile) (name : String) : Prop :=
  ∃ i j met, i < j ∧ f.behind i name = some met ∧ f.behind j name = some met

/-- Following bases comes to a version that is not declared. -/
def ReachesUndeclared (f : CatalogFile) (name : String) : Prop :=
  ∃ i met, f.behind i name = some met ∧ f.versions.get? met = none

/-- Following bases comes to a version with a component whose name is not its own catalog name. -/
def Misnames (f : CatalogFile) (name : String) : Prop :=
  ∃ i v, f.versionBehind? i name = some v ∧
    ∃ c ∈ v.components, canonicalNameOf? f.marker c.name ≠ some c.name

/-- The versions from the given one on, as far as bases lead. -/
structure IsChain (f : CatalogFile) (name : String) (chain : List NamedVersion) : Prop where
  behind : ∀ i, f.behind i name = chain[i]?.map Prod.fst
  declared : ∀ v ∈ chain, f.versions.get? v.1 = some v.2
  nodup : (chain.map Prod.fst).Nodup

section Chain

variable {f : CatalogFile} {declared : String → Bool} {start last name : String}
  {remaining chain : List NamedVersion}

private theorem get?_of_lookup (hremaining : remaining ⊆ f.versions.entries) {v : VersionSpec}
    (hv : remaining.lookup name = some v) : f.versions.get? name = some v :=
  f.versions.mem_entries_iff.1 (hremaining (mem_of_lookup_eq_some hv))

private theorem behind_succ {v : VersionSpec} {base : String}
    (hname : f.versions.get? name = some v) (hbase : v.base = some base) (i : Nat) :
    f.behind (i + 1) name = f.behind i base := by
  rw [behind, hname, Option.bind_some, hbase, Option.bind_some]

/-- What `followBases` gives is the chain. -/
theorem isChain_of_followBases (hremaining : remaining ⊆ f.versions.entries)
    (h : followBases declared start last name remaining = .ok chain) : f.IsChain name chain := by
  fun_induction followBases declared start last name remaining generalizing chain with
  | case1 => cases h
  | case2 => cases h
  | case3 last name remaining v hv hbase =>
    cases h
    have hname := get?_of_lookup hremaining hv
    refine ⟨fun i => ?_, fun w hw => ?_, List.nodup_singleton name⟩
    · cases i with
      | zero => rfl
      | succ i => rw [CatalogFile.behind, hname, Option.bind_some, hbase]; rfl
    · rw [List.mem_singleton.1 hw, hname]
  | case4 last name remaining v hv base hbase ih =>
    have hname := get?_of_lookup hremaining hv
    cases hrest : followBases declared start name base (versionsWithout name remaining) with
    | error e => simp [hrest, Except.map] at h
    | ok rest =>
      rw [hrest] at h
      cases h
      have hbehind := ih (List.Subset.trans List.filter_sublist.subset hremaining) hrest
      -- The rest of the chain was followed without the first name, so it does not come back.
      refine ⟨fun i => ?_, List.forall_mem_cons.2 ⟨hname, hbehind.declared⟩,
        List.nodup_cons.2 ⟨fun hmem => ?_, hbehind.nodup⟩⟩
      · cases i with
        | zero => rfl
        | succ i => rw [behind_succ hname hbase, hbehind.behind, List.getElem?_cons_succ]
      · obtain ⟨w, hw, hwname⟩ := List.mem_map.1 hmem
        have hwithout := (List.mem_filter.1 (subset_of_followBases hrest hw)).2
        simp [hwname] at hwithout

/-- A version that is not among those of other names has this name, or was not there before. -/
theorem lookup_of_versionsWithout {n : String}
    (h : (versionsWithout name remaining).lookup n = none) :
    n = name ∨ remaining.lookup n = none := by
  rw [List.lookup_eq_none_iff] at h ⊢
  refine or_iff_not_imp_left.2 fun hne v hv => ?_
  by_cases hvname : v.1 = name
  · exact bne_iff_ne.2 (hvname ▸ hne)
  · exact h v (List.mem_filter.2 ⟨hv, by simpa using hvname⟩)

/-- When `followBases` fails, it came to a version that is not declared, that was met before the
walk began, or that the walk itself met before. -/
theorem exists_of_followBases_eq_error {met : List String} {e : CatalogFault}
    (hremaining : remaining ⊆ f.versions.entries)
    (hmet : ∀ n, remaining.lookup n = none → f.versions.get? n = none ∨ n ∈ met)
    (h : followBases declared start last name remaining = .error e) :
    ∃ i n, f.behind i name = some n ∧
      (f.versions.get? n = none ∨ n ∈ met ∨ ∃ j < i, f.behind j name = some n) := by
  fun_induction followBases declared start last name remaining generalizing met e with
  | case1 last name remaining hname =>
    exact ⟨0, name, rfl, (hmet name hname).imp_right .inl⟩
  | case2 last name remaining hname =>
    exact ⟨0, name, rfl, (hmet name hname).imp_right .inl⟩
  | case3 => cases h
  | case4 last name remaining v hv base hbase ih =>
    have hsucc := behind_succ (get?_of_lookup hremaining hv) hbase
    cases hrest : followBases declared start name base (versionsWithout name remaining) with
    | ok rest => simp [hrest, Except.map] at h
    | error e =>
      -- A name that is not among the remaining versions was never declared, or was met.
      have hmet' : ∀ n, (versionsWithout name remaining).lookup n = none →
          f.versions.get? n = none ∨ n ∈ name :: met := by
        intro n hn
        rcases lookup_of_versionsWithout hn with rfl | hn
        · exact .inr List.mem_cons_self
        · exact (hmet n hn).imp_right (List.mem_cons_of_mem name)
      obtain ⟨i, n, hn, hreason⟩ :=
        ih (List.Subset.trans List.filter_sublist.subset hremaining) hmet' hrest
      refine ⟨i + 1, n, (hsucc i).trans hn, hreason.imp_right ?_⟩
      rintro (hmem | ⟨j, hj, hn⟩)
      · rcases List.mem_cons.1 hmem with rfl | hmem
        · exact .inr ⟨0, Nat.succ_pos i, rfl⟩
        · exact .inl hmem
      · exact .inr ⟨j + 1, Nat.succ_lt_succ hj, (hsucc j).trans hn⟩

/-- The walk over the versions of a file gives their chain, or fails because there is none. -/
theorem versionChain_spec (f : CatalogFile) (key : String) :
    (∃ chain, f.versionChain key = .ok chain ∧ f.IsChain key chain) ∨
      ∃ e, f.versionChain key = .error e ∧ (f.Revisits key ∨ f.ReachesUndeclared key) := by
  cases h : f.versionChain key with
  | ok chain => exact .inl ⟨chain, rfl, isChain_of_followBases (List.Subset.refl _) h⟩
  | error e =>
    have hnothing : ∀ n, f.versions.entries.lookup n = none →
        f.versions.get? n = none ∨ n ∈ ([] : List String) := fun _ => .inl
    obtain ⟨i, n, hn, hreason⟩ := exists_of_followBases_eq_error (List.Subset.refl _) hnothing h
    refine .inr ⟨e, rfl, ?_⟩
    rcases hreason with hundeclared | hmet | ⟨j, hj, hmet⟩
    · exact .inr ⟨i, n, hn, hundeclared⟩
    · exact absurd hmet List.not_mem_nil
    · exact .inl ⟨j, i, n, hj, hmet, hn⟩

/-- The versions behind a name are those of its chain. -/
theorem IsChain.versionBehind? (h : f.IsChain name chain) (i : Nat) :
    f.versionBehind? i name = chain[i]?.map Prod.snd := by
  rw [CatalogFile.versionBehind?, h.behind]
  cases hv : chain[i]? with
  | none => rfl
  | some v => exact h.declared v (List.mem_of_getElem? hv)

/-- A chain visits no version twice. -/
theorem IsChain.not_revisits (h : f.IsChain name chain) : ¬ f.Revisits name := by
  rintro ⟨i, j, met, hij, hi, hj⟩
  rw [h.behind, ← List.getElem?_map] at hi hj
  have hlt : i < (chain.map Prod.fst).length := (List.getElem?_eq_some_iff.1 hi).1
  exact Nat.ne_of_lt hij ((List.getElem?_inj hlt h.nodup).1 (hi.trans hj.symm))

/-- All versions of a chain are declared. -/
theorem IsChain.not_reachesUndeclared (h : f.IsChain name chain) :
    ¬ f.ReachesUndeclared name := by
  rintro ⟨i, met, hi, hundeclared⟩
  rw [h.behind] at hi
  obtain ⟨v, hv, rfl⟩ := Option.map_eq_some_iff.1 hi
  rw [h.declared v (List.mem_of_getElem? hv)] at hundeclared
  cases hundeclared

/-- The names that are not canonical are found along the chain. -/
theorem IsChain.misnames_iff (h : f.IsChain name chain) : f.Misnames name ↔
    ∃ v ∈ chain, ∃ c ∈ v.2.components, canonicalNameOf? f.marker c.name ≠ some c.name := by
  constructor
  · rintro ⟨i, v, hi, hc⟩
    rw [h.versionBehind?] at hi
    obtain ⟨w, hw, rfl⟩ := Option.map_eq_some_iff.1 hi
    exact ⟨w, List.mem_of_getElem? hw, hc⟩
  · rintro ⟨v, hv, hc⟩
    obtain ⟨i, hi⟩ := List.getElem?_of_mem hv
    exact ⟨i, v.2, by rw [h.versionBehind?, hi, Option.map_some], hc⟩

end Chain

/-! ### Adding components -/

/-- A fold of steps that may fail succeeds when all steps do. -/
theorem foldlM_eq_ok_iff {ε α β : Type} {step : β → α → Except ε β} {p : α → Prop}
    {g : β → α → β} (hstep : ∀ b a b', step b a = .ok b' ↔ p a ∧ b' = g b a) {l : List α}
    {b b' : β} : l.foldlM step b = .ok b' ↔ (∀ a ∈ l, p a) ∧ b' = l.foldl g b := by
  induction l generalizing b with
  | nil => simp [pure, Except.pure, eq_comm]
  | cons a l ih =>
    rw [List.foldlM_cons, List.foldl_cons, List.forall_mem_cons]
    cases ha : step b a with
    | error e =>
      have hnot : ¬ p a := fun hp => by
        rw [(hstep b a (g b a)).2 ⟨hp, rfl⟩] at ha
        cases ha
      simp [bind, Except.bind, hnot]
    | ok c =>
      obtain ⟨hp, rfl⟩ := (hstep b a c).1 ha
      simp only [bind, Except.bind, hp, true_and]
      exact ih

/-- The table with the components of a version added to it. -/
def addAll (t : NameTable ComponentSpec) (v : NamedVersion) : NameTable ComponentSpec :=
  v.2.components.foldl (fun t c => t.insert c.name c) t

/-- The table of all components of a chain, nearest version first. -/
def addChain (chain : List NamedVersion) : NameTable ComponentSpec :=
  chain.reverse.foldl addAll {}

/-- **The components of a chain** are there exactly when all names are canonical, and later versions
replace what earlier ones declare. -/
theorem chainComponents_eq_ok_iff {f : CatalogFile} {chain : List NamedVersion}
    {t : NameTable ComponentSpec} : f.chainComponents chain = .ok t ↔
      (∀ v ∈ chain, ∀ c ∈ v.2.components, canonicalNameOf? f.marker c.name = some c.name) ∧
        t = addChain chain := by
  have hcomponent : ∀ (version : String) (t : NameTable ComponentSpec) (c : ComponentSpec)
      (t' : NameTable ComponentSpec), f.addComponent version t c = .ok t' ↔
        canonicalNameOf? f.marker c.name = some c.name ∧ t' = t.insert c.name c := by
    intro version t c t'
    rw [addComponent]
    split
    · next h => simp [h, eq_comm]
    · next h => simp [h]
  have hversion : ∀ (t : NameTable ComponentSpec) (v : NamedVersion)
      (t' : NameTable ComponentSpec), f.addVersion t v = .ok t' ↔
        (∀ c ∈ v.2.components, canonicalNameOf? f.marker c.name = some c.name) ∧ t' = addAll t v :=
    fun t v t' => foldlM_eq_ok_iff (hcomponent v.1)
  rw [chainComponents, foldlM_eq_ok_iff hversion]
  simp only [List.mem_reverse, addChain]

/-- Of the components that are added, the last one of a name stays. -/
theorem get?_foldl_insert (components : List ComponentSpec) (t : NameTable ComponentSpec)
    (n : String) : (components.foldl (fun t c => t.insert c.name c) t).get? n =
      (components.reverse.find? fun c => c.name = n).or (t.get? n) := by
  induction components generalizing t with
  | nil => rfl
  | cons c components ih =>
    rw [List.foldl_cons, ih, NameTable.get?_insert, List.reverse_cons, List.find?_append,
      Option.or_assoc, List.find?_singleton]
    by_cases hn : n = c.name
    · simp [hn]
    · simp [hn, Ne.symm hn]

private theorem get?_addAll (t : NameTable ComponentSpec) (v : NamedVersion) (n : String) :
    (addAll t v).get? n = (v.2.last? n).or (t.get? n) :=
  get?_foldl_insert v.2.components t n

/-- The nearest version that has a component of the name decides. -/
theorem get?_addChain (chain : List NamedVersion) (n : String) :
    (addChain chain).get? n = chain.findSome? fun v => v.2.last? n := by
  induction chain with
  | nil => rfl
  | cons v chain ih =>
    rw [addChain, List.reverse_cons, List.foldl_append, List.foldl_cons, List.foldl_nil,
      get?_addAll, ← addChain, ih, List.findSome?_cons]
    cases v.2.last? n <;> rfl

/-! ### The resolved catalog -/

/-- Why a declared version has no catalog. -/
def Faulty (f : CatalogFile) (key : String) : Prop :=
  f.Revisits key ∨ f.ReachesUndeclared key ∨ f.Misnames key

/-- The catalog of a version, by the versions behind it. -/
structure Flattens (f : CatalogFile) (key : String) (catalog : Catalog) : Prop where
  version : catalog.version = key
  marker : catalog.marker = f.marker
  /-- A component is the last one of its name in the nearest version that has one. -/
  get?_eq_some_iff : ∀ (n : String) (c : ComponentSpec), catalog.get? n = some c ↔
    ∃ i v, f.versionBehind? i key = some v ∧ v.last? n = some c ∧
      ∀ j < i, ∀ w, f.versionBehind? j key = some w → ¬ w.Names n
  get?_eq_none_iff : ∀ n : String, catalog.get? n = none ↔
    ∀ i v, f.versionBehind? i key = some v → ¬ v.Names n
  /-- Components are stored under their own names, which are catalog names. -/
  stored : ∀ e ∈ catalog.components.entries,
    e.1 = e.2.name ∧ canonicalNameOf? f.marker e.1 = some e.1
  /-- The components are listed by the bytes of their names, each name once. -/
  listed : (catalog.componentList.map ComponentSpec.name).Pairwise fun a b =>
    Text.utf8Bytes a < Text.utf8Bytes b
  mem_listed_iff : ∀ n : String, n ∈ catalog.componentList.map ComponentSpec.name ↔
    ∃ c, catalog.get? n = some c

/-- The first element that has a value, by its index. -/
theorem findSome?_eq_some_iff_getElem? {α β : Type} {g : α → Option β} {l : List α} {b : β} :
    l.findSome? g = some b ↔ ∃ (i : Nat) (a : α), l[i]? = some a ∧ g a = some b ∧
      ∀ j < i, ∀ x, l[j]? = some x → g x = none := by
  rw [List.findSome?_eq_some_iff]
  constructor
  · rintro ⟨before, a, after, rfl, ha, hbefore⟩
    refine ⟨before.length, a, by simp, ha, fun j hj x hx => hbefore x ?_⟩
    rw [List.getElem?_append_left hj] at hx
    exact List.mem_of_getElem? hx
  · rintro ⟨i, a, hi, ha, hbefore⟩
    obtain ⟨hlt, rfl⟩ := List.getElem?_eq_some_iff.1 hi
    refine ⟨l.take i, l[i], l.drop (i + 1), ?_, ha, fun x hx => ?_⟩
    · rw [← List.drop_eq_getElem_cons hlt, List.take_append_drop]
    · obtain ⟨j, hj⟩ := List.getElem?_of_mem hx
      obtain ⟨hjlt, -⟩ := List.getElem?_eq_some_iff.1 hj
      have hji : j < i := Nat.lt_of_lt_of_le hjlt (List.length_take_le i l)
      exact hbefore j hji x ((List.getElem?_take_of_lt hji).symm.trans hj)

/-- The components of a chain make up the catalog of its first version. -/
theorem IsChain.flattens {f : CatalogFile} {key : String} {chain : List NamedVersion}
    (h : f.IsChain key chain)
    (hnames : ∀ v ∈ chain, ∀ c ∈ v.2.components, canonicalNameOf? f.marker c.name = some c.name)
    {catalog : Catalog} (hversion : catalog.version = key) (hmarker : catalog.marker = f.marker)
    (hcomponents : catalog.components = addChain chain) : f.Flattens key catalog := by
  -- The nearest version that has a name decides, and in it the last entry of that name.
  have hget : ∀ n, catalog.get? n = (chain.map Prod.snd).findSome? fun v => v.last? n := by
    intro n
    rw [Catalog.get?, hcomponents, get?_addChain, List.findSome?_map]
    rfl
  have hbehind : ∀ i, (chain.map Prod.snd)[i]? = f.versionBehind? i key := by
    intro i
    rw [List.getElem?_map, h.versionBehind?]
  have hstored : ∀ e ∈ catalog.components.entries,
      e.1 = e.2.name ∧ canonicalNameOf? f.marker e.1 = some e.1 := by
    intro e he
    have hlookup : catalog.get? e.1 = some e.2 := catalog.components.mem_entries_iff.1 he
    rw [hget] at hlookup
    obtain ⟨_, hbehind, hlast⟩ := List.exists_of_findSome?_eq_some hlookup
    obtain ⟨v, hv, rfl⟩ := List.mem_map.1 hbehind
    obtain ⟨hmem, hname⟩ := VersionSpec.name_of_last? hlast
    exact ⟨hname.symm, hname ▸ hnames v hv e.2 hmem⟩
  have hlist : catalog.componentList.map ComponentSpec.name = catalog.components.keys := by
    rw [Catalog.componentList, NameTable.values, NameTable.keys, List.map_map]
    exact List.map_congr_left fun e he => (hstored e he).1.symm
  refine ⟨hversion, hmarker, fun n c => ?_, fun n => ?_, hstored, ?_, fun n => ?_⟩
  · rw [hget, findSome?_eq_some_iff_getElem?]
    simp only [hbehind, VersionSpec.last?_eq_none_iff]
  · rw [hget, List.findSome?_eq_none_iff]
    simp only [List.mem_iff_getElem?, hbehind, VersionSpec.last?_eq_none_iff, forall_exists_index]
    exact forall_comm
  · rw [hlist, NameTable.keys, List.pairwise_map]
    exact catalog.components.ascending.imp Text.utf8Bytes_lt_of_lt
  · rw [hlist, NameTable.mem_keys_iff]
    rfl

section Resolve

variable {f : CatalogFile} {requested key : String}

/-- A version that is not declared is not resolved. -/
theorem resolve_of_undeclared (h : f.versions.get? (f.versionKey requested) = none) :
    f.resolve requested = .error (.unknownVersion requested f.versionNames) := by
  have hcontains : f.versions.contains (f.versionKey requested) = false := by
    rw [NameTable.contains, h, Option.isSome_none]
  simp only [resolve, hcontains, Bool.not_false, if_true]

/-- A declared version has a catalog, or it is faulty and has none. -/
theorem resolve_of_declared (h : f.versions.get? (f.versionKey requested) ≠ none) :
    (∃ e, f.resolve requested = .error (.fault e) ∧ f.Faulty (f.versionKey requested)) ∨
      ∃ catalog, f.resolve requested = .ok catalog ∧ ¬ f.Faulty (f.versionKey requested) ∧
        f.Flattens (f.versionKey requested) catalog := by
  have hcontains : f.versions.contains (f.versionKey requested) = true :=
    Option.isSome_iff_ne_none.2 h
  simp only [resolve, hcontains, Bool.not_true, Bool.false_eq_true, if_false]
  rcases versionChain_spec f (f.versionKey requested) with
    ⟨chain, hchain, hbehind⟩ | ⟨e, he, hfault⟩
  · rw [hchain]
    dsimp only
    cases hcomponents : f.chainComponents chain with
    | error e =>
      refine .inl ⟨e, rfl, .inr (.inr (hbehind.misnames_iff.2 ?_))⟩
      by_contra hnames
      push Not at hnames
      rw [chainComponents_eq_ok_iff.2 ⟨hnames, rfl⟩] at hcomponents
      cases hcomponents
    | ok components =>
      obtain ⟨hnames, rfl⟩ := chainComponents_eq_ok_iff.1 hcomponents
      refine .inr ⟨_, rfl, ?_, hbehind.flattens hnames rfl rfl rfl⟩
      rintro (hrevisits | hundeclared | hmisnames)
      · exact hbehind.not_revisits hrevisits
      · exact hbehind.not_reachesUndeclared hundeclared
      · obtain ⟨v, hv, c, hc, hname⟩ := hbehind.misnames_iff.1 hmisnames
        exact hname (hnames v hv c hc)
  · rw [he]
    exact .inl ⟨e, rfl, hfault.imp_right .inl⟩

/-- **Unknown versions.** The error says so exactly when the requested version is not declared. -/
theorem exists_unknownVersion_iff :
    (∃ asked available, f.resolve requested = .error (.unknownVersion asked available)) ↔
      f.versions.get? (f.versionKey requested) = none := by
  constructor
  · rintro ⟨asked, available, h⟩
    by_contra hdeclared
    rcases resolve_of_declared hdeclared with ⟨e, he, -⟩ | ⟨catalog, hcatalog, -⟩
    · simp [he] at h
    · simp [hcatalog] at h
  · exact fun h => ⟨_, _, resolve_of_undeclared h⟩

/-- **Faults of a catalog.** There is one exactly when the bases of the version are at fault. -/
theorem exists_fault_iff (h : f.versions.get? (f.versionKey requested) ≠ none) :
    (∃ e, f.resolve requested = .error (.fault e)) ↔ f.Faulty (f.versionKey requested) := by
  rcases resolve_of_declared h with ⟨e, he, hfaulty⟩ | ⟨catalog, hcatalog, hsound, -⟩
  · exact iff_of_true ⟨e, he⟩ hfaulty
  · exact iff_of_false (by simp [hcatalog]) hsound

/-- A sound version is flattened. -/
theorem exists_catalog (h : f.versions.get? (f.versionKey requested) ≠ none)
    (hsound : ¬ f.Faulty (f.versionKey requested)) :
    ∃ catalog, f.resolve requested = .ok catalog ∧
      f.Flattens (f.versionKey requested) catalog := by
  rcases resolve_of_declared h with ⟨-, -, hfaulty⟩ | ⟨catalog, hcatalog, -, hflattens⟩
  · exact absurd hfaulty hsound
  · exact ⟨catalog, hcatalog, hflattens⟩

/-- What was resolved is not faulty. -/
theorem sound_of_resolve {catalog : Catalog} (h : f.resolve requested = .ok catalog)
    (hdeclared : f.versions.get? (f.versionKey requested) ≠ none) :
    ¬ f.Faulty (f.versionKey requested) ∧ f.Flattens (f.versionKey requested) catalog := by
  rcases resolve_of_declared hdeclared with ⟨e, he, -⟩ | ⟨found, hfound, hsound, hflattens⟩
  · simp [he] at h
  · cases hfound.symm.trans h
    exact ⟨hsound, hflattens⟩

/-! ### The version that a request means -/

private theorem versionKey_eq (f : CatalogFile) (requested : String) : f.versionKey requested =
    if requested = "latest" ∧ f.versions.get? "latest" = none then f.defaultVersion
    else requested := by
  simp [versionKey, NameTable.contains]

/-- A declared version is what a request for its name means. -/
theorem versionKey_of_declared (h : f.versions.get? key ≠ none) : f.versionKey key = key := by
  rw [versionKey_eq]
  refine if_neg ?_
  rintro ⟨rfl, hnone⟩
  exact h hnone

/-! ### Versions and their bases -/

section Base

variable {v : VersionSpec} {base : String} (hkey : f.versions.get? key = some v)
  (hbase : v.base = some base)
include hkey hbase

private theorem versionBehind?_succ (i : Nat) :
    f.versionBehind? (i + 1) key = f.versionBehind? i base := by
  rw [versionBehind?, behind_succ hkey hbase, ← versionBehind?]

/-- What is wrong with the base of a version is wrong with the version. -/
theorem Faulty.of_base (h : f.Faulty base) : f.Faulty key := by
  rcases h with ⟨i, j, met, hij, hi, hj⟩ | ⟨i, met, hi, hmet⟩ | ⟨i, w, hi, hw⟩
  · refine .inl ⟨i + 1, j + 1, met, Nat.succ_lt_succ hij, ?_, ?_⟩
    · rw [behind_succ hkey hbase, hi]
    · rw [behind_succ hkey hbase, hj]
  · exact .inr (.inl ⟨i + 1, met, by rw [behind_succ hkey hbase, hi], hmet⟩)
  · exact .inr (.inr ⟨i + 1, w, by rw [versionBehind?_succ hkey hbase, hi], hw⟩)

/-- A sound version has a declared base. -/
theorem declared_of_base (h : ¬ f.Faulty key) : f.versions.get? base ≠ none := by
  intro hundeclared
  exact h (.inr (.inl ⟨1, base, behind_succ hkey hbase 0, hundeclared⟩))

/-- The catalog of a version has every name that the catalog of its base has. -/
theorem Flattens.contains_of_base {catalog parent : Catalog} (hcatalog : f.Flattens key catalog)
    (hparent : f.Flattens base parent) {n : String} (hn : parent.contains n = true) :
    catalog.contains n = true := by
  rw [Catalog.contains, NameTable.contains, ← Catalog.get?, Option.isSome_iff_ne_none] at hn ⊢
  refine mt (fun hnone => ?_) hn
  rw [hcatalog.get?_eq_none_iff] at hnone
  rw [hparent.get?_eq_none_iff]
  intro i w hw
  exact hnone (i + 1) w (by rw [versionBehind?_succ hkey hbase, hw])

end Base

/-- The base of a version that has a catalog has one too, with no other names. -/
theorem exists_parent_catalog {v : VersionSpec} {base : String} {catalog : Catalog}
    (h : f.resolve requested = .ok catalog)
    (hkey : f.versions.get? (f.versionKey requested) = some v) (hbase : v.base = some base) :
    ∃ parent, f.resolve base = .ok parent ∧ parent.version = base ∧
      ∀ n, parent.contains n = true → catalog.contains n = true := by
  obtain ⟨hsound, hcatalog⟩ := sound_of_resolve h (by simp [hkey])
  have hdeclared := declared_of_base hkey hbase hsound
  have hbaseKey := versionKey_of_declared hdeclared
  obtain ⟨parent, hparent, hflattens⟩ := @exists_catalog f base (by rwa [hbaseKey])
    (by rw [hbaseKey]; exact mt (Faulty.of_base hkey hbase) hsound)
  rw [hbaseKey] at hflattens
  exact ⟨parent, hparent, hflattens.version, fun n hn =>
    hcatalog.contains_of_base hkey hbase hflattens hn⟩

end Resolve

/-- **A catalog follows the chain of versions.** A request means the default version when it is
`latest` and no version has that name. When the version that it means is not declared, it is
unknown. Otherwise there is a fault exactly when following bases comes to some version twice, to one
that is not declared, or to one with a component that is not under its catalog name; and when there
is none, the catalog has for each name the last component in the nearest version that has one. So
the catalog of a version has every name that the catalog of its base has. -/
theorem resolve_follows_bases (f : CatalogFile) (requested : String) :
    let key := if requested = "latest" ∧ f.versions.get? "latest" = none then f.defaultVersion
      else requested
    ((∃ asked available, f.resolve requested = .error (.unknownVersion asked available)) ↔
      f.versions.get? key = none) ∧
    (f.versions.get? key ≠ none →
      ((∃ e, f.resolve requested = .error (.fault e)) ↔
        f.Revisits key ∨ f.ReachesUndeclared key ∨ f.Misnames key) ∧
      (¬ (f.Revisits key ∨ f.ReachesUndeclared key ∨ f.Misnames key) →
        ∃ catalog, f.resolve requested = .ok catalog ∧ f.Flattens key catalog)) ∧
    ∀ catalog v base, f.resolve requested = .ok catalog → f.versions.get? key = some v →
      v.base = some base → ∃ parent, f.resolve base = .ok parent ∧ parent.version = base ∧
        ∀ n, parent.contains n = true → catalog.contains n = true := by
  intro key
  have hkey : f.versionKey requested = key := versionKey_eq f requested
  rw [← hkey]
  exact ⟨exists_unknownVersion_iff,
    fun hdeclared => ⟨exists_fault_iff hdeclared, exists_catalog hdeclared⟩,
    fun _ _ _ => exists_parent_catalog⟩

/-- Two versions of which the second replaces a component, and does so twice, and a version that is
based on a circle of two others. -/
def layeredFile : CatalogFile where
  defaultVersion := "v2"
  versions := .ofList
    [("v1", { components := [{ name := "va-link" }, { name := "va-tag", required := ["text"] }] }),
      ("v2", { base := some "v1"
               components := [{ name := "va-tag" }, { name := "va-tag", deprecated := true }] }),
      ("outside", { base := some "circle" }),
      ("circle", { base := some "back" }),
      ("back", { base := some "circle" })]

/-- The newest version is the second one, which has what the first one has, and the last of its own
replacements. What leads into the circle has no catalog. -/
theorem resolve_follows_bases_layered :
    (∃ catalog, layeredFile.resolve "latest" = .ok catalog ∧ catalog.version = "v2" ∧
      catalog.get? "va-tag" = some { name := "va-tag", deprecated := true } ∧
      (∃ parent, layeredFile.resolve "v1" = .ok parent ∧
        ∀ n, parent.contains n = true → catalog.contains n = true)) ∧
    ∃ e, layeredFile.resolve "outside" = .error (.fault e) := by
  constructor
  · have hrun : (layeredFile.resolve "latest").toOption.bind (Catalog.get? · "va-tag") =
        some { name := "va-tag", deprecated := true } := by decide +kernel
    have hbase : (layeredFile.versions.get? "v2").bind VersionSpec.base = some "v1" := by
      decide +kernel
    obtain ⟨v, hkey, hbase⟩ := Option.bind_eq_some_iff.1 hbase
    obtain ⟨-, hresolve, hparent⟩ := resolve_follows_bases layeredFile "latest"
    obtain ⟨hfault, hcatalog⟩ := hresolve (Option.ne_none_iff_exists'.2 ⟨v, hkey⟩)
    obtain ⟨catalog, hresolved, hflattens⟩ := hcatalog fun h => by
      obtain ⟨e, he⟩ := hfault.2 h
      simp [he, Except.toOption] at hrun
    obtain ⟨parent, hbaseResolved, -, hcontained⟩ := hparent catalog v "v1" hresolved hkey hbase
    rw [hresolved] at hrun
    exact ⟨catalog, hresolved, hflattens.version, hrun, parent, hbaseResolved, hcontained⟩
  · have hkey : layeredFile.versions.get? "outside" ≠ none := by decide +kernel
    have hrevisits : layeredFile.Revisits "outside" :=
      ⟨1, 3, "circle", by decide, by decide +kernel, by decide +kernel⟩
    exact ((resolve_follows_bases layeredFile "outside").2.1 hkey).1.2 (.inl hrevisits)

end CatalogFile

end ComponentAudit
