import ComponentAudit.Proofs.Location
import Mathlib.Data.List.TakeWhile
import Mathlib.Logic.Relation
import Mathlib.Order.Bounds.Defs

/-!
# The nearest enclosing site

The parent of a usage is found with a stack of sites. Sites that are over are taken off lazily, and
only from the top, so further down there may be some that ended long ago; and since extents may
overlap, they do not leave the stack in the order of their ends.

`StillOpen` is what the stack does guarantee at a place: every site that ends beyond it is there,
and later sites lie above earlier ones. Both survive when the top is taken off (`StillOpen.settle`)
and when a site is put on (`StillOpen.push`), for what is left out has ended, and the places
ascend. So the top, once it is not over, is the latest of all sites that are not over
(`StillOpen.isNearest_head?`), and no other site needs to be looked at.

The main statement is `usagesOf_parent_isNearest`.
-/

namespace ComponentAudit

/-- The earlier site at index `p` ends after the start of the site at index `n`. -/
def ReachesOver (sites : List Site) (p n : Nat) : Prop :=
  p < n ∧ ∃ s t : Site, sites[p]? = some s ∧ sites[n]? = some t ∧ t.start < s.stop

/-- The latest of the earlier sites that end after the start of the site at index `n`, or nothing
when there is none. -/
def IsNearest (sites : List Site) (n : Nat) : Option Nat → Prop
  | some p => IsGreatest {q | ReachesOver sites q n} p
  | none => ∀ q, ¬ ReachesOver sites q n

/-- The usage at index `n` names the one at index `p` as its parent. -/
def HasParent (usages : List Usage) (n p : Nat) : Prop :=
  ∃ u, usages[n]? = some u ∧ u.parent = some p

/-! ### The stack -/

/-- A stack of ends and indices, after the sites `done` and when no later one starts before
`here`. -/
structure StillOpen (done : List Site) (here : Nat) (stack : List (Nat × Nat)) : Prop where
  /-- Later sites lie above earlier ones. -/
  descending : stack.Pairwise fun a b => b.2 < a.2
  /-- What lies on the stack are ends of sites, with their indices. -/
  sound : ∀ e ∈ stack, ∃ s, done[e.2]? = some s ∧ s.stop = e.1
  /-- No site is missing that ends beyond `here`. -/
  complete : ∀ (p : Nat) (s : Site), done[p]? = some s → here < s.stop → (s.stop, p) ∈ stack

section Stack

variable {done rest : List Site} {s : Site} {here there : Nat} {stack : List (Nat × Nat)}

private theorem stillOpen_nil : StillOpen [] here [] where
  descending := .nil
  sound _ he := absurd he List.not_mem_nil
  complete _ _ hs := by simp at hs

/-- What is over at a later place may be taken off the top. -/
theorem StillOpen.settle (h : StillOpen done here stack) (hle : here ≤ there) :
    StillOpen done there (stack.dropWhile fun e => e.1 ≤ there) where
  descending := h.descending.sublist (List.dropWhile_sublist _)
  sound e he := h.sound e ((List.dropWhile_sublist _).subset he)
  complete p s hs hstop := by
    have hmem : (s.stop, p) ∈ stack := h.complete p s hs (Nat.lt_of_le_of_lt hle hstop)
    rw [← List.takeWhile_append_dropWhile (p := fun e : Nat × Nat => e.1 ≤ there) (l := stack)]
      at hmem
    refine (List.mem_append.1 hmem).resolve_left fun htake => ?_
    have hover : s.stop ≤ there := by simpa using List.mem_takeWhile_imp htake
    omega

/-- The next site goes on top, unless its extent is empty. -/
theorem StillOpen.push (h : StillOpen done s.start stack) :
    StillOpen (done ++ [s]) s.start
      (if s.start < s.stop then (s.stop, done.length) :: stack else stack) := by
  have hbound : ∀ e ∈ stack, e.2 < done.length := by
    intro e he
    obtain ⟨t, ht, -⟩ := h.sound e he
    exact (List.getElem?_eq_some_iff.1 ht).1
  have hsound : ∀ e ∈ stack, ∃ t, (done ++ [s])[e.2]? = some t ∧ t.stop = e.1 := by
    intro e he
    rw [List.getElem?_append_left (hbound e he)]
    exact h.sound e he
  -- What is open at the start of the new site is the site itself or was open before it.
  have hcases : ∀ (p : Nat) (t : Site), (done ++ [s])[p]? = some t → s.start < t.stop →
      (s = t ∧ done.length = p) ∨ (t.stop, p) ∈ stack := by
    intro p t ht hstop
    rcases Nat.lt_or_ge p done.length with hp | hp
    · rw [List.getElem?_append_left hp] at ht
      exact .inr (h.complete p t ht hstop)
    · rw [List.getElem?_append_right hp, List.getElem?_singleton] at ht
      split at ht
      · cases ht
        exact .inl ⟨rfl, by omega⟩
      · cases ht
  split
  · refine ⟨List.pairwise_cons.2 ⟨hbound, h.descending⟩, fun e he => ?_, fun p t ht hstop => ?_⟩
    · rcases List.mem_cons.1 he with rfl | he
      · exact ⟨s, List.getElem?_concat_length, rfl⟩
      · exact hsound e he
    · rcases hcases p t ht hstop with ⟨rfl, rfl⟩ | hmem
      · exact List.mem_cons_self
      · exact List.mem_cons_of_mem _ hmem
  · next hempty =>
    refine ⟨h.descending, hsound, fun p t ht hstop => ?_⟩
    rcases hcases p t ht hstop with ⟨rfl, -⟩ | hmem
    · exact absurd hstop hempty
    · exact hmem

/-- A site reaches over the start of the next one when it is not over by then. -/
theorem reachesOver_length_iff {p : Nat} :
    ReachesOver (done ++ s :: rest) p done.length ↔
      ∃ t, done[p]? = some t ∧ s.start < t.stop := by
  have hnext : (done ++ s :: rest)[done.length]? = some s := by simp
  constructor
  · rintro ⟨hp, t, u, ht, hu, hlt⟩
    rw [List.getElem?_append_left hp] at ht
    cases hnext.symm.trans hu
    exact ⟨t, ht, hlt⟩
  · rintro ⟨t, ht, hlt⟩
    have hp : p < done.length := (List.getElem?_eq_some_iff.1 ht).1
    exact ⟨hp, t, s, by rw [List.getElem?_append_left hp, ht], hnext, hlt⟩

/-- When the top is not over, it is the nearest of all sites that are not. -/
theorem StillOpen.isNearest_head? (h : StillOpen done s.start stack)
    (htop : ∀ e ∈ stack.head?, s.start < e.1) :
    IsNearest (done ++ s :: rest) done.length (stack.head?.map Prod.snd) := by
  cases stack with
  | nil =>
    intro q hq
    obtain ⟨t, ht, hlt⟩ := reachesOver_length_iff.1 hq
    exact absurd (h.complete q t ht hlt) List.not_mem_nil
  | cons e stack =>
    obtain ⟨t, ht, hstop⟩ := h.sound e List.mem_cons_self
    refine ⟨reachesOver_length_iff.2 ⟨t, ht, hstop ▸ htop e rfl⟩, fun q hq => ?_⟩
    obtain ⟨u, hu, hlt⟩ := reachesOver_length_iff.1 hq
    -- Whatever else reaches over the start lies on the stack, and so below the top.
    rcases List.mem_cons.1 (h.complete q u hu hlt) with htop | hbelow
    · exact Nat.le_of_eq (congrArg Prod.snd htop)
    · exact Nat.le_of_lt (List.rel_of_pairwise_cons h.descending hbelow)

end Stack

/-! ### The pass over the sites -/

/-- The pass finds the nearest site for each of the sites that follow. -/
theorem parentWalk_isNearest {rest : List Site} :
    ∀ {done : List Site} {here : Nat} {stack : List (Nat × Nat)}, StillOpen done here stack →
      (∀ s ∈ rest, here ≤ s.start) → rest.Pairwise (fun a b => a.start ≤ b.start) →
      ∀ {k : Nat} {parent : Option Nat}, (parentWalk stack done.length rest)[k]? = some parent →
        IsNearest (done ++ rest) (done.length + k) parent := by
  induction rest with
  | nil =>
    intro _ _ _ _ _ _ k parent hk
    simp [parentWalk] at hk
  | cons s rest ih =>
    intro done here stack hopen hstarts hsorted k parent hk
    obtain ⟨hnext, hsorted⟩ := List.pairwise_cons.1 hsorted
    -- Only sites that are open at the start of the next one are left; the top one is its parent.
    have hsettled := hopen.settle (hstarts s List.mem_cons_self)
    rw [parentWalk] at hk
    cases k with
    | zero =>
      have htop := List.head?_dropWhile_not (fun e : Nat × Nat => decide (e.1 ≤ s.start)) stack
      rw [List.getElem?_cons_zero, Option.some.injEq] at hk
      rw [← hk]
      refine hsettled.isNearest_head? fun e he => ?_
      rw [Option.mem_def] at he
      simpa [he] using htop
    | succ k =>
      have hwalk := @ih _ _ _ hsettled.push hnext hsorted k parent
      rw [List.length_append, List.length_singleton, List.append_assoc, List.singleton_append,
        Nat.add_assoc, Nat.add_comm 1 k] at hwalk
      exact hwalk hk

/-- When parents come earlier, so do all ancestors. -/
theorem lt_of_ancestor {usages : List Usage} (h : ∀ n p, HasParent usages n p → p < n) {n p : Nat}
    (hpath : Relation.TransGen (HasParent usages) n p) : p < n := by
  induction hpath with
  | single hparent => exact h _ _ hparent
  | tail _ hparent ih => exact Nat.lt_trans (h _ _ hparent) ih

/-- **The parent of a usage is the nearest site around it.** For sites in the order of their starts,
with any extents, each usage has as its parent the greatest earlier index whose site ends after the
start of its own, and no parent when there is no such index. So parents have smaller indices, and
no usage is among its own ancestors. -/
theorem usagesOf_parent_isNearest {sites : List Site}
    (h : sites.Pairwise fun a b => a.start ≤ b.start) (text : List Char) (path : String) :
    (usagesOf text path sites).length = sites.length ∧
      (∀ (n : Nat) (u : Usage), (usagesOf text path sites)[n]? = some u →
        IsNearest sites n u.parent) ∧
      (∀ n p : Nat, HasParent (usagesOf text path sites) n p →
        p < n ∧ p < (usagesOf text path sites).length) ∧
      ∀ n : Nat, ¬ Relation.TransGen (HasParent (usagesOf text path sites)) n n := by
  have husages := @usagesOf_eq_zipWith text path sites (List.pairwise_map.2 h)
  have hlength : (usagesOf text path sites).length = sites.length := by
    rw [husages, List.length_zipWith, parents, length_parentWalk, Nat.min_self]
  have hnearest : ∀ (n : Nat) (u : Usage), (usagesOf text path sites)[n]? = some u →
      IsNearest sites n u.parent := by
    intro n u hu
    rw [husages, List.getElem?_zipWith_eq_some] at hu
    obtain ⟨s, parent, -, hparent, rfl⟩ := hu
    have hwalk := @parentWalk_isNearest sites [] 0 [] stillOpen_nil
      (fun _ _ => Nat.zero_le _) h n parent hparent
    rwa [List.nil_append, List.length_nil, Nat.zero_add] at hwalk
  have hlt : ∀ n p : Nat, HasParent (usagesOf text path sites) n p →
      p < n ∧ p < (usagesOf text path sites).length := by
    rintro n p ⟨u, hu, hp⟩
    have hn : n < (usagesOf text path sites).length := (List.getElem?_eq_some_iff.1 hu).1
    have hgreatest := hnearest n u hu
    rw [hp] at hgreatest
    have hpn : p < n := hgreatest.1.1
    exact ⟨hpn, Nat.lt_trans hpn hn⟩
  refine ⟨hlength, hnearest, hlt, fun n hcycle => ?_⟩
  exact Nat.lt_irrefl n (lt_of_ancestor (fun n p hparent => (hlt n p hparent).1) hcycle)

/-- Overlapping extents: the second site is over when the fourth starts, but lies below the third
on the stack; the first is over when the fifth starts, and lies there still. -/
theorem usagesOf_parent_isNearest_overlapping :
    let sites : List Site := [⟨"VaA", "va-a", 0, 10, {}, false⟩, ⟨"VaB", "va-b", 2, 4, {}, false⟩,
      ⟨"VaC", "va-c", 3, 12, {}, false⟩, ⟨"VaD", "va-d", 5, 5, {}, false⟩,
      ⟨"VaE", "va-e", 11, 14, {}, false⟩, ⟨"VaF", "va-f", 12, 13, {}, false⟩,
      ⟨"VaG", "va-g", 14, 15, {}, false⟩]
    (usagesOf [] "a.jsx" sites).map Usage.parent =
        [none, some 0, some 1, some 2, some 2, some 4, none] ∧
      IsNearest sites 4 (some 2) ∧
      ¬ Relation.TransGen (HasParent (usagesOf [] "a.jsx" sites)) 4 4 := by
  intro sites
  have hsorted : sites.Pairwise fun a b => a.start ≤ b.start := by decide
  obtain ⟨-, hnearest, -, hacyclic⟩ := usagesOf_parent_isNearest hsorted [] "a.jsx"
  exact ⟨by decide, hnearest 4 _ rfl, hacyclic 4⟩

end ComponentAudit
