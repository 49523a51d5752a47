import ComponentAudit.Glob.Braces
import Mathlib.Data.List.Infix

/-!
# What a pattern with braces stands for

A pattern with well-formed groups is a sequence of characters and groups, and a group is a list of
patterns (`BraceText`, `BraceGroup`). It stands for all combinations of what its parts stand for,
with the leftmost group changing slowest (`BraceText.expansions`).

The expansion does not know of parts. It finds the first group of the whole text, writes each
alternative in its place and starts over. So the statement that is carried through the parts is
about a text with anything behind it: what a well-formed text stands for is put in front of every
expansion of the rest, whatever the rest is (`expandBraces_print_append`). An alternative is such a
text, with what follows the group as the rest.
-/

namespace ComponentAudit.Glob

/-! ### Well-formed patterns -/

/-- A character that stands for itself: no brace, and inside a group no comma. -/
def StandsForItself (inGroup : Bool) (c : Char) : Prop :=
  c ≠ '\x7b' ∧ c ≠ '\x7d' ∧ (inGroup = true → c ≠ ',')

mutual

/-- A pattern with well-formed groups, inside of a group or not. Every part comes with the parts
after it. -/
inductive BraceText : Bool → Type
  | nil {inGroup : Bool} : BraceText inGroup
  | char {inGroup : Bool} (c : Char) (literal : StandsForItself inGroup c)
      (next : BraceText inGroup) : BraceText inGroup
  | group {inGroup : Bool} (alternatives : BraceGroup) (next : BraceText inGroup) :
      BraceText inGroup

/-- The alternatives of a group, of which there is at least one. -/
inductive BraceGroup : Type
  | last (a : BraceText true) : BraceGroup
  | more (a : BraceText true) (alternatives : BraceGroup) : BraceGroup

end

mutual

/-- The text of a pattern. -/
def BraceText.print : {inGroup : Bool} → BraceText inGroup → List Char
  | _, .nil => []
  | _, .char c _ next => c :: next.print
  | _, .group alternatives next => '\x7b' :: (alternatives.print ++ '\x7d' :: next.print)

/-- The text of alternatives, with commas between them. -/
def BraceGroup.print : BraceGroup → List Char
  | .last a => a.print
  | .more a alternatives => a.print ++ ',' :: alternatives.print

end

mutual

/-- The texts that a pattern stands for: all combinations of what its parts stand for, with the
leftmost part changing slowest. -/
def BraceText.expansions : {inGroup : Bool} → BraceText inGroup → List (List Char)
  | _, .nil => [[]]
  | _, .char c _ next => next.expansions.map (c :: ·)
  | _, .group alternatives next =>
    alternatives.expansions.flatMap fun s => next.expansions.map (s ++ ·)

/-- The texts that a group stands for: those of its alternatives, one after another. -/
def BraceGroup.expansions : BraceGroup → List (List Char)
  | .last a => a.expansions
  | .more a alternatives => a.expansions ++ alternatives.expansions

end

/-- The texts of the alternatives. -/
def BraceGroup.texts : BraceGroup → List (List Char)
  | .last a => [a.print]
  | .more a alternatives => a.print :: alternatives.texts

/-! ### The search for the end of a group -/

section

variable {c : Char} {depth : Nat} {current rest : List Char}

private theorem groupWalk?_open : groupWalk? depth current ('\x7b' :: rest) =
    groupWalk? (depth + 1) ('\x7b' :: current) rest := by
  rw [groupWalk?, if_pos rfl]

private theorem groupWalk?_close : groupWalk? (depth + 1) current ('\x7d' :: rest) =
    groupWalk? depth ('\x7d' :: current) rest := by
  rw [groupWalk?, if_neg (by decide), if_pos rfl, if_neg (Nat.succ_ne_zero depth)]
  rfl

/-- A character that is no brace is passed over, a comma only inside of an inner group. -/
theorem groupWalk?_char (hopen : c ≠ '\x7b') (hclose : c ≠ '\x7d')
    (hcomma : c = ',' → depth ≠ 0) :
    groupWalk? depth current (c :: rest) = groupWalk? depth (c :: current) rest := by
  rw [groupWalk?, if_neg hopen, if_neg hclose, if_neg fun h => hcomma h.1 h.2]

end

mutual

/-- The search passes over a well-formed text: the groups in it are closed in it. -/
theorem groupWalk?_text : ∀ (t : BraceText true) (depth : Nat) (current rest : List Char),
    groupWalk? depth current (t.print ++ rest) =
      groupWalk? depth (t.print.reverse ++ current) rest
  | .nil, _, _, _ => by simp [BraceText.print]
  | .char c hc next, depth, current, rest => by
    rw [BraceText.print, List.cons_append,
      groupWalk?_char hc.1 hc.2.1 fun h => absurd h (hc.2.2 rfl), groupWalk?_text next]
    simp
  | .group alternatives next, depth, current, rest => by
    rw [BraceText.print, List.cons_append, List.append_assoc, groupWalk?_open,
      groupWalk?_alternatives alternatives, List.cons_append, groupWalk?_close,
      groupWalk?_text next]
    simp

/-- The search passes over the alternatives of an inner group. -/
theorem groupWalk?_alternatives : ∀ (g : BraceGroup) (depth : Nat) (current rest : List Char),
    groupWalk? (depth + 1) current (g.print ++ rest) =
      groupWalk? (depth + 1) (g.print.reverse ++ current) rest
  | .last a, depth, current, rest => by
    rw [BraceGroup.print, groupWalk?_text a]
  | .more a alternatives, depth, current, rest => by
    rw [BraceGroup.print, List.append_assoc, groupWalk?_text a, List.cons_append,
      groupWalk?_char (by decide) (by decide) fun _ => Nat.succ_ne_zero depth,
      groupWalk?_alternatives alternatives]
    simp

end

/-- At its own level the search finds the alternatives of a group and what follows it. -/
theorem groupWalk?_group : ∀ (g : BraceGroup) (rest : List Char),
    groupWalk? 0 [] (g.print ++ '\x7d' :: rest) = some (g.texts, rest)
  | .last a, rest => by
    rw [BraceGroup.print, groupWalk?_text a, groupWalk?, if_neg (by decide), if_pos rfl,
      if_pos rfl]
    simp [BraceGroup.texts]
  | .more a alternatives, rest => by
    rw [BraceGroup.print, List.append_assoc, groupWalk?_text a, List.cons_append, groupWalk?,
      if_neg (by decide), if_neg (by decide), if_pos ⟨rfl, rfl⟩,
      groupWalk?_group alternatives rest]
    simp [BraceGroup.texts]

/-- The search comes to the end of the text exactly if no part of the text from its start closes
more than it opens, the open groups included. -/
theorem groupWalk?_eq_none_iff {s : List Char} {depth : Nat} {current : List Char} :
    groupWalk? depth current s = none ↔
      ∀ p, p <+: s → p.count '\x7d' ≤ p.count '\x7b' + depth := by
  induction s generalizing depth current with
  | nil => simp [groupWalk?]
  | cons c s ih =>
    have hparts : ∀ P : List Char → Prop,
        (∀ p, p <+: c :: s → P p) ↔ P [] ∧ ∀ p, p <+: s → P (c :: p) := by
      intro P
      constructor
      · exact fun h => ⟨h [] List.nil_prefix, fun p hp => h _ (List.cons_prefix_cons.2 ⟨rfl, hp⟩)⟩
      · rintro ⟨hnil, hcons⟩ p hp
        rcases List.prefix_cons_iff.1 hp with rfl | ⟨q, rfl, hq⟩
        · exact hnil
        · exact hcons q hq
    rw [hparts]
    by_cases hopen : c = '\x7b'
    · subst hopen
      rw [groupWalk?_open, ih]
      simp [Nat.add_right_comm, Nat.add_assoc]
    by_cases hclose : c = '\x7d'
    · subst hclose
      cases depth with
      | zero =>
        -- The group is closed here, and this character alone closes more than is open.
        have hclosed : groupWalk? 0 current ('\x7d' :: s) ≠ none := by simp [groupWalk?]
        refine iff_of_false hclosed fun h => ?_
        simpa using h.2 [] List.nil_prefix
      | succ depth =>
        rw [groupWalk?_close, ih]
        simp [← Nat.add_assoc]
    have hcount : ∀ p : List Char, (c :: p).count '\x7d' ≤ (c :: p).count '\x7b' + depth ↔
        p.count '\x7d' ≤ p.count '\x7b' + depth := by
      intro p
      rw [List.count_cons_of_ne hclose, List.count_cons_of_ne hopen]
    simp only [hcount, List.count_nil, Nat.zero_le, true_and]
    by_cases hcomma : c = ',' ∧ depth = 0
    · rw [groupWalk?, if_neg hopen, if_neg hclose, if_pos hcomma, Option.map_eq_none_iff, ih,
        hcomma.2]
    · rw [groupWalk?_char hopen hclose fun h hdepth => hcomma ⟨h, hdepth⟩, ih]

/-! ### One step of the expansion -/

/-- The expansion of `pattern` goes on with that of `next`: an alternative stands in the place of
the first group. -/
def Continues (pattern next : List Char) : Prop :=
  ∃ front alternatives tail a, firstGroup? pattern = some (front, alternatives, tail) ∧
    a ∈ alternatives ∧ next = front ++ a ++ tail

/-- A pattern without a group stands for itself. -/
theorem expandBraces_of_none {pattern : List Char} (h : firstGroup? pattern = none) :
    expandBraces pattern = [pattern] := by
  rw [expandBraces]
  split
  · rfl
  · next hsome =>
    rw [h] at hsome
    cases hsome

/-- The first group is replaced by each of its alternatives. -/
theorem expandBraces_of_some {pattern front tail : List Char} {alternatives : List (List Char)}
    (h : firstGroup? pattern = some (front, alternatives, tail)) :
    expandBraces pattern = alternatives.flatMap fun a => expandBraces (front ++ a ++ tail) := by
  rw [expandBraces]
  split
  · next hnone =>
    rw [h] at hnone
    cases hnone
  · next hsome =>
    cases h.symm.trans hsome
    rw [List.flatMap_subtype fun _ _ => rfl, List.unattach_attach]

private theorem firstGroup?_open (s : List Char) : firstGroup? ('\x7b' :: s) =
    (groupWalk? 0 [] s).map fun (alternatives, tail) => ([], alternatives, tail) := rfl

/-- A character in front of the first group stays there. -/
theorem firstGroup?_cons {c : Char} (h : c ≠ '\x7b') (s : List Char) :
    firstGroup? (c :: s) = (firstGroup? s).map fun (front, alternatives, tail) =>
      (c :: front, alternatives, tail) := by
  have hdrop : (c :: s).dropWhile (· ≠ '\x7b') = s.dropWhile (· ≠ '\x7b') :=
    List.dropWhile_cons_of_pos (decide_eq_true h)
  have htake : (c :: s).takeWhile (· ≠ '\x7b') = c :: s.takeWhile (· ≠ '\x7b') :=
    List.takeWhile_cons_of_pos (decide_eq_true h)
  rw [firstGroup?, firstGroup?, hdrop, htake]
  split
  · rfl
  · rw [Option.map_map]
    rfl

private theorem expandBraces_cons {c : Char} (h : c ≠ '\x7b') (s : List Char) :
    expandBraces (c :: s) = (expandBraces s).map (c :: ·) := by
  -- Along the recursion: replacing a group leaves the character in front of it.
  fun_induction expandBraces s with
  | case1 s hnone => rw [expandBraces_of_none (by rw [firstGroup?_cons h, hnone]; rfl)]; rfl
  | case2 s front alternatives tail hsome ih =>
    have hstep : firstGroup? (c :: s) = some (c :: front, alternatives, tail) := by
      rw [firstGroup?_cons h, hsome]
      rfl
    rw [expandBraces_of_some hstep, List.map_flatMap,
      List.flatMap_subtype (g := fun a => (expandBraces (front ++ a ++ tail)).map (c :: ·))
        fun _ _ => rfl, List.unattach_attach]
    exact List.flatMap_congr fun a ha => ih a ha

/-- What stands before the first brace stands before every expansion. -/
theorem expandBraces_append {front : List Char} (h : '\x7b' ∉ front) (s : List Char) :
    expandBraces (front ++ s) = (expandBraces s).map (front ++ ·) := by
  induction front with
  | nil => simp
  | cons c front ih =>
    obtain ⟨hc, hfront⟩ := List.ne_and_not_mem_of_not_mem_cons h
    rw [List.cons_append, expandBraces_cons hc.symm, ih hfront, List.map_map]
    rfl

/-! ### What patterns stand for -/

mutual

/-- What a well-formed text stands for is put in front of the expansions of the rest. -/
theorem expandBraces_print_append : ∀ {inGroup : Bool} (t : BraceText inGroup) (rest : List Char),
    expandBraces (t.print ++ rest) = t.expansions.flatMap fun s => (expandBraces rest).map (s ++ ·)
  | _, .nil, rest => by simp [BraceText.print, BraceText.expansions]
  | _, .char c hc next, rest => by
    rw [BraceText.print, List.cons_append, expandBraces_cons hc.1,
      expandBraces_print_append next rest, BraceText.expansions, List.map_flatMap,
      List.flatMap_map]
    simp [Function.comp_def]
  | _, .group alternatives next, rest => by
    have hstep : firstGroup? ((BraceText.group alternatives next).print ++ rest) =
        some ([], alternatives.texts, next.print ++ rest) := by
      rw [BraceText.print, List.cons_append, List.append_assoc, List.cons_append,
        firstGroup?_open, groupWalk?_group]
      rfl
    rw [expandBraces_of_some hstep]
    simp only [List.nil_append]
    rw [flatMap_expandBraces_texts alternatives, expandBraces_print_append next rest,
      BraceText.expansions, List.flatMap_assoc]
    simp [List.map_flatMap, List.flatMap_map, Function.comp_def]

/-- The alternatives of a group, each with the same rest behind it. -/
theorem flatMap_expandBraces_texts : ∀ (g : BraceGroup) (rest : List Char),
    (g.texts.flatMap fun a => expandBraces (a ++ rest)) =
      g.expansions.flatMap fun s => (expandBraces rest).map (s ++ ·)
  | .last a, rest => by
    simp [BraceGroup.texts, BraceGroup.expansions, expandBraces_print_append a rest]
  | .more a alternatives, rest => by
    rw [BraceGroup.texts, BraceGroup.expansions, List.flatMap_cons, List.flatMap_append,
      expandBraces_print_append a rest, flatMap_expandBraces_texts alternatives rest]

end

/-- **A pattern stands for the ordered product of its alternatives.** Every step of the expansion
leads to patterns from which only finitely many steps follow, so the expansion of any text, balanced
or not, comes to an end. A pattern with well-formed groups, nested to any depth, expands to all
combinations of what its parts stand for, with the leftmost part changing slowest. A pattern whose
first brace is never closed expands to itself alone. -/
theorem expandBraces_eq_expansions :
    WellFounded (fun next pattern => Continues pattern next) ∧
      (∀ t : BraceText false, expandBraces t.print = t.expansions) ∧
      ∀ front s : List Char, '\x7b' ∉ front →
        (∀ p, p <+: s → p.count '\x7d' ≤ p.count '\x7b') →
        expandBraces (front ++ '\x7b' :: s) = [front ++ '\x7b' :: s] := by
  refine ⟨?_, fun t => ?_, fun front s hfront hopen => ?_⟩
  · refine Subrelation.wf ?_ (measure fun pattern : List Char => pattern.count '\x7b').wf
    rintro next pattern ⟨front, alternatives, tail, a, hgroup, ha, rfl⟩
    exact count_replaced_lt hgroup ha
  · have hnil : expandBraces [] = [[]] := expandBraces_of_none rfl
    have ht := expandBraces_print_append t []
    rw [List.append_nil, hnil] at ht
    simpa using ht
  · have hnone : firstGroup? ('\x7b' :: s) = none := by
      rw [firstGroup?_open, groupWalk?_eq_none_iff.2 hopen]
      rfl
    rw [expandBraces_append hfront, expandBraces_of_none hnone]
    rfl

/-- A nested group with an empty alternative, between other characters, and a group that is never
closed although one inside of it is. -/
theorem expandBraces_eq_expansions_nested :
    expandBraces "\x7ba,b\x7b,c\x7d\x7d.js".toList =
        ["a.js".toList, "b.js".toList, "bc.js".toList] ∧
      (∀ p, p <+: "b,\x7bc\x7d".toList → p.count '\x7d' ≤ p.count '\x7b') ∧
      expandBraces "a\x7bb,\x7bc\x7d".toList = ["a\x7bb,\x7bc\x7d".toList] := by
  obtain ⟨-, hproduct, hunclosed⟩ := expandBraces_eq_expansions
  have hliteral : ∀ c ∈ ['a', 'b', 'c', '.', 'j', 's'], ∀ inGroup, StandsForItself inGroup c := by
    simp [StandsForItself]
  let ending : BraceText false := .char '.' (hliteral _ (by decide) _)
    (.char 'j' (hliteral _ (by decide) _) (.char 's' (hliteral _ (by decide) _) .nil))
  let inner : BraceGroup := .more .nil (.last (.char 'c' (hliteral _ (by decide) _) .nil))
  let outer : BraceGroup := .more (.char 'a' (hliteral _ (by decide) _) .nil)
    (.last (.char 'b' (hliteral _ (by decide) _) (.group inner .nil)))
  have hopen : ∀ p, p <+: "b,\x7bc\x7d".toList → p.count '\x7d' ≤ p.count '\x7b' := by
    simp only [← List.mem_inits]
    decide
  exact ⟨hproduct (.group outer ending), hopen, hunclosed ['a'] _ (by decide) hopen⟩

end ComponentAudit.Glob
