import ComponentAudit.Rules.Label
import Mathlib.Data.List.TakeWhile

/-!
# Labels by a plain look at the file

A usage is labelled by its context when the usage around it provides a label, or when some provider
starts before it and not too many lines above. `LabelIndex.labels` does not look at all providers:
it takes the last one that starts before the usage, in a list of places that was sorted once for the
whole file.

That one decides for all of them. The providers that start before a usage are the first ones of the
ascending list (`lt_length_takeWhile_iff`), and of these the last one is on the lowest line, so it
is near enough when any is (`closest_near_iff`). Since it starts before the usage, its line is not
below the line of the usage, and the distance is not cut off at zero.

The main statement is `LabelIndex.labels_iff_providers`.
-/

namespace ComponentAudit

/-- The usage starts before the other one: on an earlier line, or on the same line further left. -/
def Usage.StartsBefore (q u : Usage) : Prop :=
  q.lineNumber < u.lineNumber ∨ q.lineNumber = u.lineNumber ∧ q.column < u.column

/-! ### Places in ascending order -/

private theorem placeLt_iff {a b : Nat × Nat} :
    placeLt a b = true ↔ a.1 < b.1 ∨ a.1 = b.1 ∧ a.2 < b.2 := by
  simp only [placeLt, Bool.or_eq_true, Bool.and_eq_true, decide_eq_true_eq]

private theorem placeLt_eq_false_iff {a b : Nat × Nat} :
    placeLt a b = false ↔ b.1 < a.1 ∨ b.1 = a.1 ∧ b.2 ≤ a.2 := by
  rw [← Bool.not_eq_true, placeLt_iff]
  omega

/-- Places that do not descend. -/
def InOrder (places : List (Nat × Nat)) : Prop := places.Pairwise fun a b => placeLt b a = false

/-- The starts are in the order of their places. -/
theorem inOrder_mergeSort (places : List (Nat × Nat)) :
    InOrder (places.mergeSort fun a b => !placeLt b a) := by
  have htrans : ∀ a b c : Nat × Nat, (!placeLt b a) = true → (!placeLt c b) = true →
      (!placeLt c a) = true := by
    intro a b c
    simp only [Bool.not_eq_true', placeLt_eq_false_iff]
    omega
  have htotal : ∀ a b : Nat × Nat, (!placeLt b a || !placeLt a b) = true := by
    intro a b
    simp only [Bool.or_eq_true, Bool.not_eq_true', placeLt_eq_false_iff]
    omega
  exact (List.pairwise_mergeSort htrans htotal places).imp fun h => by simpa using h

/-- Whatever precedes a place of the list that comes before `here` comes before `here` too. -/
theorem InOrder.before_closed {places : List (Nat × Nat)} (h : InOrder places)
    (here : Nat × Nat) :
    places.Pairwise fun a b => placeLt b here = true → placeLt a here = true := by
  refine h.imp fun {a b} hab hb => ?_
  rw [placeLt_eq_false_iff] at hab
  rw [placeLt_iff] at hb ⊢
  omega

/-- When `p` holds of all that precedes an element of which it holds, the elements of which it holds
are those at the first indices. -/
theorem lt_length_takeWhile_iff {α : Type} {p : α → Bool} {l : List α}
    (h : l.Pairwise fun a b => p b = true → p a = true) {i : Nat} {a : α} (ha : l[i]? = some a) :
    p a = true ↔ i < (l.takeWhile p).length := by
  induction l generalizing i with
  | nil => simp at ha
  | cons b l ih =>
    obtain ⟨hhead, htail⟩ := List.pairwise_cons.1 h
    by_cases hb : p b = true
    · rw [List.takeWhile_cons_of_pos hb, List.length_cons]
      cases i with
      | zero =>
        cases ha
        exact iff_of_true hb (Nat.zero_lt_succ _)
      | succ i =>
        rw [List.getElem?_cons_succ] at ha
        rw [ih htail ha, Nat.add_lt_add_iff_right]
    · rw [List.takeWhile_cons_of_neg hb]
      refine iff_of_false (fun hpa => hb ?_) (Nat.not_lt_zero _)
      rcases List.mem_cons.1 (List.mem_of_getElem? ha) with rfl | hmem
      · exact hpa
      · exact hhead a hmem hpa

/-! ### The closest place decides -/

/-- The last of the ascending places before `here` is near enough when any of them is. -/
theorem closest_near_iff {places : List (Nat × Nat)} (h : InOrder places) (here : Nat × Nat)
    (proximity : Nat) :
    ((places.takeWhile fun s => placeLt s here).getLast?.any fun s =>
        here.1 - s.1 ≤ proximity) = true ↔
      ∃ s ∈ places, placeLt s here = true ∧ here.1 - s.1 ≤ proximity := by
  have hfirst : (places.takeWhile fun s => placeLt s here) <+: places := List.takeWhile_prefix _
  simp only [Option.any_eq_true, decide_eq_true_eq]
  constructor
  · rintro ⟨s, hlast, hnear⟩
    have hmem := List.mem_of_getLast? hlast
    have hbefore : placeLt s here = true := by simpa using List.mem_takeWhile_imp hmem
    exact ⟨s, hfirst.subset hmem, hbefore, hnear⟩
  · rintro ⟨s, hs, hbefore, hnear⟩
    obtain ⟨i, hi⟩ := List.getElem?_of_mem hs
    have hlt := (lt_length_takeWhile_iff (h.before_closed here) hi).1 hbefore
    have hmem : s ∈ places.takeWhile fun s => placeLt s here := by
      rw [List.prefix_iff_eq_take.1 hfirst]
      exact List.mem_of_getElem? ((List.getElem?_take_of_lt hlt).trans hi)
    obtain ⟨closest, hlast⟩ := Option.isSome_iff_exists.1
      (List.getLast?_isSome.2 (List.ne_nil_of_mem hmem))
    refine ⟨closest, hlast, ?_⟩
    -- Nothing before the usage is further down than the last place before it.
    obtain ⟨others, hothers⟩ := List.getLast?_eq_some_iff.1 hlast
    have horder : InOrder (others ++ [closest]) := hothers ▸ h.sublist hfirst.sublist
    have hline : s.1 ≤ closest.1 := by
      rw [hothers, List.mem_append, List.mem_singleton] at hmem
      rcases hmem with hother | rfl
      · have := (List.pairwise_append.1 horder).2.2 s hother closest List.mem_cons_self
        rw [placeLt_eq_false_iff] at this
        omega
      · exact Nat.le_refl _
    omega

/-! ### Label providers -/

namespace LabelIndex

/-- The index has the starts of the usages that provide a label. -/
theorem mem_starts_iff {catalog : Catalog} {usages : List Usage} {s : Nat × Nat} :
    s ∈ (ofUsages catalog usages).starts ↔
      ∃ q ∈ usages, providesLabel catalog q = true ∧ q.start = s := by
  simp only [ofUsages, List.mem_mergeSort, List.mem_map, List.mem_filter, and_assoc]

/-- The usage around provides a label when the index says so. -/
theorem any_provides_iff {catalog : Catalog} {usages : List Usage} {parent : Option Nat} :
    (parent.any fun p => (ofUsages catalog usages).provides[p]?.getD false) = true ↔
      ∃ p q, parent = some p ∧ usages[p]? = some q ∧ providesLabel catalog q = true := by
  cases parent with
  | none => simp
  | some p =>
    simp only [ofUsages, Option.any_some, List.getElem?_map, Option.some.injEq, exists_and_left,
      exists_eq_left']
    cases usages[p]? with
    | none => simp
    | some q => simp

/-- **The label index says what a plain look at the file says.** A usage is labelled exactly when
its parent is the index of a usage that provides a label, or some provider of the file starts before
it and is at most `proximity` lines above. The providers that start before it are the first ones of
the ascending list, and the line of the last of them, which is the one that `labels` compares, is
not below the line of the usage. -/
theorem labels_iff_providers (catalog : Catalog) (usages : List Usage) (u : Usage)
    (proximity : Nat) :
    ((ofUsages catalog usages).labels u proximity = true ↔
      (∃ p q, u.parent = some p ∧ usages[p]? = some q ∧ providesLabel catalog q = true) ∨
        ∃ q ∈ usages, providesLabel catalog q = true ∧ q.StartsBefore u ∧
          u.lineNumber - q.lineNumber ≤ proximity) ∧
      ∃ before ≤ (ofUsages catalog usages).starts.length,
        (∀ (i : Nat) (s : Nat × Nat), (ofUsages catalog usages).starts[i]? = some s →
          (placeLt s u.start = true ↔ i < before)) ∧
        ((ofUsages catalog usages).starts.takeWhile fun s => placeLt s u.start) =
          (ofUsages catalog usages).starts.take before ∧
        ∀ s : Nat × Nat, 0 < before → (ofUsages catalog usages).starts[before - 1]? = some s →
          s.1 ≤ u.lineNumber := by
  have horder : InOrder (ofUsages catalog usages).starts := inOrder_mergeSort _
  have hsplit : ∀ (i : Nat) (s : Nat × Nat), (ofUsages catalog usages).starts[i]? = some s →
      (placeLt s u.start = true ↔
        i < ((ofUsages catalog usages).starts.takeWhile fun s => placeLt s u.start).length) :=
    fun _ _ => lt_length_takeWhile_iff (horder.before_closed u.start)
  have hfirst : ((ofUsages catalog usages).starts.takeWhile fun s => placeLt s u.start) <+:
      (ofUsages catalog usages).starts := List.takeWhile_prefix _
  refine ⟨?_, _, hfirst.length_le, hsplit, List.prefix_iff_eq_take.1 hfirst, fun s hpos hs => ?_⟩
  · rw [labels, Bool.or_eq_true, any_provides_iff]
    refine or_congr Iff.rfl ((closest_near_iff horder u.start proximity).trans ?_)
    constructor
    · rintro ⟨_, hs, hbefore, hnear⟩
      obtain ⟨q, hq, hprovides, rfl⟩ := mem_starts_iff.1 hs
      exact ⟨q, hq, hprovides, placeLt_iff.1 hbefore, hnear⟩
    · rintro ⟨q, hq, hprovides, hbefore, hnear⟩
      exact ⟨q.start, mem_starts_iff.2 ⟨q, hq, hprovides, rfl⟩, placeLt_iff.2 hbefore, hnear⟩
  · have hbefore := placeLt_iff.1 ((hsplit _ s hs).2 (Nat.sub_lt hpos Nat.zero_lt_one))
    rw [Usage.start] at hbefore
    omega

/-- A catalog with groups of radio buttons, which label what they enclose or precede. -/
def radioCatalog : Catalog where
  name := "forms"
  marker := "va-"
  version := "v1"
  components := .ofList
    [("va-radio", { name := "va-radio", access := { providesLabel := true } })]
  access := {}

/-- Three groups, in no particular order: one starts after the control on its own line, one a line
above it, and one far above. -/
theorem labels_iff_providers_radio :
    let radio (line column : Nat) : Usage :=
      { componentName := "va-radio", tag := "va-radio", filePath := "a.html"
        lineNumber := line, column }
    let control : Usage :=
      { componentName := "va-text-input", tag := "va-text-input", filePath := "a.html"
        lineNumber := 9, column := 10, parent := some 1 }
    let usages := [radio 9 20, control, radio 8 3, radio 1 1]
    (LabelIndex.ofUsages radioCatalog usages).labels control 1 = true ∧
      ¬ (LabelIndex.ofUsages radioCatalog usages).labels control 0 = true := by
  intro radio control usages
  have hnear : (radio 8 3).StartsBefore control := .inl (by decide)
  refine ⟨?_, fun hlabels => ?_⟩
  · exact (labels_iff_providers radioCatalog usages control 1).1.2
      (.inr ⟨radio 8 3, by simp [usages], by decide +kernel, hnear, by decide⟩)
  · have hplain := (labels_iff_providers radioCatalog usages control 0).1.1 hlabels
    rcases hplain with ⟨p, q, hp, hq, hprovides⟩ | ⟨q, hq, hprovides, hbefore, hline⟩
    · cases hp
      cases hq
      revert hprovides
      decide +kernel
    · simp only [usages, List.mem_cons, List.not_mem_nil, or_false] at hq
      rcases hq with rfl | rfl | rfl | rfl <;>
        simp [radio, control, Usage.StartsBefore] at hbefore hline

end LabelIndex

end ComponentAudit
