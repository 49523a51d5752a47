import ComponentAudit.Proofs.Location

/-!
# Outlines

An *outline* is how the sites of a text nest: sites follow one another, and a site has others inside
its extent. It says which usages a text should give, without any scan: one for each site, in
preorder, with the index of the site just around it as its parent (`Outline.usages`).

The extents are part of the sites, and `Outline.Within` says that they nest as the outline does.
Then the pass that finds parents by the ends of sites finds those of the outline
(`Outline.parents_sites`), so that a scan which finds the sites of an outline extracts its usages
(`extract_eq_usages`). What is left for a language of elements is to scan its written form.
-/

namespace ComponentAudit

/-- How sites nest. -/
inductive Outline where
  | empty
  /-- One outline after another. -/
  | join (a b : Outline)
  /-- A site and the outline of what it encloses. -/
  | inside (s : Site) (o : Outline)

namespace Outline

/-- The sites in preorder. -/
def sites : Outline → List Site
  | .empty => []
  | .join a b => a.sites ++ b.sites
  | .inside s o => s :: o.sites

/-- The number of sites. -/
def size : Outline → Nat
  | .empty => 0
  | .join a b => a.size + b.size
  | .inside _ o => o.size + 1

/-- The index of the site just around each site, in preorder. `parent` is the one around the whole
outline, and `n` is the index of the first site. -/
def parents (parent : Option Nat) (n : Nat) : Outline → List (Option Nat)
  | .empty => []
  | .join a b => a.parents parent n ++ b.parents parent (n + a.size)
  | .inside _ o => parent :: o.parents (some n) (n + 1)

/-- The usages of an outline in preorder, each with the position of its site in the text and the
index of the usage just around it. `parent` is the one around the whole outline, and `n` is the
index of the first usage. -/
def usages (text : List Char) (path : String) (parent : Option Nat) (n : Nat) :
    Outline → List Usage
  | .empty => []
  | .join a b => a.usages text path parent n ++ b.usages text path parent (n + a.size)
  | .inside s o =>
    s.toUsage path (positionAt text s.start) parent :: o.usages text path (some n) (n + 1)

/-- The extents of the sites lie between two places and nest as the outline does. -/
def Within (lo hi : Nat) : Outline → Prop
  | .empty => lo ≤ hi
  | .join a b => ∃ mid, a.Within lo mid ∧ b.Within mid hi
  | .inside s o => lo ≤ s.start ∧ s.stop ≤ hi ∧ o.Within (s.start + 1) s.stop

/-- An outline has as many sites as components. -/
theorem length_sites (o : Outline) : o.sites.length = o.size := by
  induction o with
  | empty => rfl
  | join a b iha ihb => rw [sites, List.length_append, iha, ihb, size]
  | inside s o ih => rw [sites, List.length_cons, ih, size]

private theorem length_parents (o : Outline) :
    ∀ (parent : Option Nat) (n : Nat), (o.parents parent n).length = o.size := by
  induction o with
  | empty => intro _ _; rfl
  | join a b iha ihb => intro parent n; rw [parents, List.length_append, iha, ihb, size]
  | inside s o ih => intro parent n; rw [parents, List.length_cons, ih, size]

/-- The stretch of an outline does not end before it begins. -/
theorem Within.le {o : Outline} : ∀ {lo hi : Nat}, o.Within lo hi → lo ≤ hi := by
  induction o with
  | empty => exact id
  | join a b iha ihb =>
    rintro lo hi ⟨mid, ha, hb⟩
    exact Nat.le_trans (iha ha) (ihb hb)
  | inside s o ih =>
    rintro lo hi ⟨hlo, hhi, ho⟩
    have := ih ho
    omega

/-- An outline lies within every wider stretch. -/
theorem Within.mono {o : Outline} :
    ∀ {lo hi lo' hi' : Nat}, o.Within lo hi → lo' ≤ lo → hi ≤ hi' → o.Within lo' hi' := by
  induction o with
  | empty =>
    intro lo hi lo' hi' h hlo hhi
    exact Nat.le_trans hlo (Nat.le_trans h hhi)
  | join a b iha ihb =>
    rintro lo hi lo' hi' ⟨mid, ha, hb⟩ hlo hhi
    exact ⟨mid, iha ha hlo (Nat.le_refl _), ihb hb (Nat.le_refl _) hhi⟩
  | inside s o _ =>
    rintro lo hi lo' hi' ⟨hstart, hstop, ho⟩ hlo hhi
    exact ⟨Nat.le_trans hlo hstart, Nat.le_trans hstop hhi, ho⟩

/-! ### Elements that may have a site -/

/-- The outline of an element that ends at the given place: of what it encloses, and of its own site
around that if it has one. -/
def enclose (site : Option Site) (stop : Nat) (inner : Outline) : Outline :=
  match site with
  | none => inner
  | some s => .inside (s.endingAt stop) inner

/-- The site of an element comes behind those in it when the latest comes first. -/
theorem reverse_sites_enclose (site : Option Site) (stop : Nat) (inner : Outline) :
    (enclose site stop inner).sites.reverse =
      inner.sites.reverse ++ (site.map (·.endingAt stop)).toList := by
  cases site <;> simp [enclose, sites]

/-- An element is one more component, if it is one. -/
theorem size_enclose (site : Option Site) (stop : Nat) (inner : Outline) :
    (enclose site stop inner).size = site.toList.length + inner.size := by
  cases site <;> simp [enclose, size, Nat.add_comm]

/-- An element is within the text from its start to its end. -/
theorem Within.enclose {inner : Outline} {site : Option Site} {start body bodyStop stop : Nat}
    (h : inner.Within body bodyStop) (hsite : ∀ s ∈ site, s.start = start) (hbody : start < body)
    (hstop : bodyStop ≤ stop) : (Outline.enclose site stop inner).Within start stop := by
  cases site with
  | none => exact h.mono (Nat.le_of_lt hbody) hstop
  | some s =>
    obtain rfl := hsite s rfl
    exact ⟨Nat.le_refl _, Nat.le_refl _, h.mono hbody hstop⟩

/-! ### The pass that finds parents -/

/-- Two stacks of enclosing sites look the same from a place on. -/
private def AlikeFrom (place : Nat) (e e' : List (Nat × Nat)) : Prop :=
  ∀ p, place ≤ p → e.dropWhile (fun x => x.1 ≤ p) = e'.dropWhile (fun x => x.1 ≤ p)

private theorem dropWhile_eq_self {e : List (Nat × Nat)} {p hi : Nat}
    (h : ∀ x ∈ e.head?, hi ≤ x.1) (hp : p < hi) : e.dropWhile (fun x => x.1 ≤ p) = e := by
  cases e with
  | nil => rfl
  | cons x e =>
    have hx : hi ≤ x.1 := h x rfl
    rw [List.dropWhile_cons_of_neg]
    simpa using Nat.lt_of_lt_of_le hp hx

/-- The pass over the sites of an outline that lies in the extent of the innermost enclosing site:
it finds the parents of the outline, and leaves a stack that looks as before behind the outline. -/
private theorem parentWalk_sites (o : Outline) :
    ∀ {lo hi : Nat} (n : Nat) (e e' : List (Nat × Nat)), o.Within lo hi → AlikeFrom lo e e' →
      (∀ x ∈ e'.head?, hi ≤ x.1) →
      ∃ f, AlikeFrom hi f e' ∧ ∀ rest : List Site, parentWalk e n (o.sites ++ rest) =
        o.parents (e'.head?.map Prod.snd) n ++ parentWalk f (n + o.size) rest := by
  induction o with
  | empty =>
    intro lo hi n e e' hwithin halike _
    exact ⟨e, fun p hp => halike p (Nat.le_trans hwithin hp), fun _ => rfl⟩
  | join a b iha ihb =>
    rintro lo hi n e e' ⟨mid, ha, hb⟩ halike hhead
    obtain ⟨f, hf, hfa⟩ := iha n e e' ha halike fun x hx => Nat.le_trans hb.le (hhead x hx)
    obtain ⟨g, hg, hgb⟩ := ihb (n + a.size) f e' hb hf hhead
    refine ⟨g, hg, fun rest => ?_⟩
    rw [sites, List.append_assoc, hfa, hgb, parents, size, List.append_assoc, Nat.add_assoc]
  | inside s o ih =>
    rintro lo hi n e e' ⟨hlo, hhi, ho⟩ halike hhead
    have hstart : s.start < s.stop := ho.le
    have hsettled : e.dropWhile (fun x => x.1 ≤ s.start) = e' := by
      rw [halike s.start hlo, dropWhile_eq_self hhead (Nat.lt_of_lt_of_le hstart hhi)]
    -- Inside the site, the site itself is the innermost one.
    obtain ⟨f, hf, hfo⟩ := ih (n + 1) ((s.stop, n) :: e') ((s.stop, n) :: e') ho
      (fun _ _ => rfl) (fun x hx => by cases hx; exact Nat.le_refl _)
    refine ⟨f, fun p hp => ?_, fun rest => ?_⟩
    · rw [hf p (Nat.le_trans hhi hp), List.dropWhile_cons_of_pos]
      simpa using Nat.le_trans hhi hp
    · rw [sites, List.cons_append, parentWalk, hsettled, if_pos hstart, hfo, parents, size]
      simp only [List.head?_cons, Option.map_some, List.cons_append, Nat.add_assoc,
        Nat.add_comm 1]

/-- The pass over sites that nest as an outline does finds the parents of the outline. -/
theorem parents_sites {o : Outline} {lo hi : Nat} (h : o.Within lo hi) :
    ComponentAudit.parents o.sites = o.parents none 0 := by
  obtain ⟨f, _, hf⟩ := parentWalk_sites o 0 [] [] h (fun _ _ => rfl) (fun x hx => by cases hx)
  have hwalk := hf []
  rw [List.append_nil, parentWalk, List.append_nil] at hwalk
  exact hwalk

/-! ### Extraction -/

/-- The usages of an outline are those at its sites, each with its parent. -/
theorem zipWith_toUsage (text : List Char) (path : String) (o : Outline) :
    ∀ (parent : Option Nat) (n : Nat),
      List.zipWith (fun s parent => s.toUsage path (positionAt text s.start) parent) o.sites
        (o.parents parent n) = o.usages text path parent n := by
  induction o with
  | empty => intro _ _; rfl
  | join a b iha ihb =>
    intro parent n
    rw [sites, parents, usages, List.zipWith_append (by rw [length_sites, length_parents]), iha,
      ihb]
  | inside s o ih =>
    intro parent n
    rw [sites, parents, usages, List.zipWith_cons_cons, ih]

/-- A text in which the scan finds the sites of an outline has the usages of the outline. -/
theorem extract_eq_usages {options : ExtractOptions} {path : String} {text : List Char}
    {o : Outline} (hwithin : o.Within 0 text.length)
    (hbytes : Text.byteSize text ≤ options.maxBytes) (hnul : '\x00' ∉ text)
    (hscan : scanText options (Dialect.ofPath ⟨path⟩) text = .ok o.sites.reverse) :
    extract options path (String.ofList text) = .ok (o.usages text path none 0) := by
  have hsites := findSites_eq_reverse hbytes hnul hscan
  rw [List.reverse_reverse] at hsites
  have hle := (findSites_pairwise_lt hsites).imp fun h => Nat.le_of_lt h
  rw [extract, String.toList_ofList, hsites]
  refine congrArg Except.ok ?_
  rw [usagesOf_eq_zipWith (List.pairwise_map.2 hle), parents_sites hwithin, zipWith_toUsage]

end Outline

end ComponentAudit
