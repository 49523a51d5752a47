import ComponentAudit.Glob.Pattern

/-!
# What patterns match

The matcher tries one way after the other through a text. `Pattern.Fits` says what it looks for: the
text falls into one piece for each token of the pattern, and each piece is something that its token
stands for. A star stands for any characters of one component, two stars for whole components with
the slash behind each, or for everything that is left, and any other token for one character.

The main statement is `Pattern.matches_iff`.
-/

namespace ComponentAudit.Glob

/-- The text falls into pieces that the tokens of the pattern stand for. -/
inductive Pattern.Fits : Pattern → List Char → Prop where
  | nil : Fits [] []
  /-- A token for one character. -/
  | one {t : Token} {ts : Pattern} {c : Char} {s : List Char} (h : t.accepts c = true)
    (rest : Fits ts s) : Fits (t :: ts) (c :: s)
  /-- A star stays within a component. -/
  | sequence {ts : Pattern} {w s : List Char} (h : '/' ∉ w) (rest : Fits ts s) :
    Fits (.sequence :: ts) (w ++ s)
  /-- Two stars end where a component begins, or with the text. -/
  | recursive {ts : Pattern} {w s : List Char} (h : w = [] ∨ w.getLast? = some '/' ∨ s = [])
    (rest : Fits ts s) : Fits (.recursive :: ts) (w ++ s)

section

variable {p : List Char → Bool} {s : List Char}

/-- The search for the end of a star tries every place up to the next slash. -/
theorem afterSequence_iff :
    afterSequence p s = true ↔ ∃ w r, s = w ++ r ∧ '/' ∉ w ∧ p r = true := by
  induction s with
  | nil =>
    refine ⟨fun h => ⟨[], [], rfl, List.not_mem_nil, h⟩, fun ⟨w, r, hs, _, hr⟩ => ?_⟩
    obtain ⟨-, rfl⟩ := List.append_eq_nil_iff.1 hs.symm
    exact hr
  | cons c s ih =>
    rw [afterSequence, Bool.or_eq_true, Bool.and_eq_true, ih]
    constructor
    · rintro (h | ⟨hc, w, r, rfl, hw, hr⟩)
      · exact ⟨[], c :: s, rfl, List.not_mem_nil, h⟩
      · have hslash : '/' ≠ c := fun h => of_decide_eq_true hc h.symm
        exact ⟨c :: w, r, rfl, by simp [hslash, hw], hr⟩
    · rintro ⟨w, r, hs, hw, hr⟩
      cases w with
      | nil =>
        obtain rfl : c :: s = r := hs
        exact .inl hr
      | cons d w =>
        obtain ⟨rfl, rfl⟩ := List.cons.inj hs
        obtain ⟨hc, hw⟩ := not_or.1 (mt List.mem_cons.2 hw)
        exact .inr ⟨decide_eq_true (Ne.symm hc), w, r, rfl, hw, hr⟩

/-- The search for the end of two stars tries every place behind a slash, and the end of the
text. -/
theorem afterSlash_iff :
    afterSlash p s = true ↔
      ∃ w r, s = w ++ r ∧ (w.getLast? = some '/' ∨ r = []) ∧ p r = true := by
  induction s with
  | nil =>
    refine ⟨fun h => ⟨[], [], rfl, .inr rfl, h⟩, fun ⟨w, r, hs, _, hr⟩ => ?_⟩
    obtain ⟨-, rfl⟩ := List.append_eq_nil_iff.1 hs.symm
    exact hr
  | cons c s ih =>
    rw [afterSlash, Bool.or_eq_true, Bool.and_eq_true, ih, decide_eq_true_eq]
    constructor
    · rintro (⟨rfl, h⟩ | ⟨w, r, rfl, hw, hr⟩)
      · exact ⟨['/'], s, rfl, .inl rfl, h⟩
      · refine ⟨c :: w, r, rfl, hw.imp_left fun h => ?_, hr⟩
        rw [List.getLast?_cons, h, Option.getD_some]
    · rintro ⟨w, r, hs, hw, hr⟩
      cases w with
      | nil =>
        rcases hw with hw | rfl
        · cases hw
        · cases hs
      | cons d w =>
        obtain ⟨rfl, rfl⟩ := List.cons.inj hs
        cases w with
        | nil =>
          rcases hw with hw | rfl
          · exact .inl ⟨Option.some.inj hw, hr⟩
          · exact .inr ⟨[], [], rfl, .inr rfl, hr⟩
        | cons e w => exact .inr ⟨e :: w, r, rfl, hw, hr⟩

end

/-- A token for one character takes the first of the text. -/
theorem Pattern.fits_cons_iff {t : Token} {ts : Pattern} {s : List Char}
    (hsequence : t ≠ .sequence) (hrecursive : t ≠ .recursive) :
    Fits (t :: ts) s ↔ ∃ c r, s = c :: r ∧ t.accepts c = true ∧ Fits ts r := by
  constructor
  · intro h
    cases h with
    | one h rest => exact ⟨_, _, rfl, h, rest⟩
    | sequence => exact absurd rfl hsequence
    | recursive => exact absurd rfl hrecursive
  · rintro ⟨c, r, rfl, h, rest⟩
    exact .one h rest

/-- **The matcher finds out whether a text fits a pattern.** -/
theorem Pattern.matches_iff {ts : Pattern} {s : List Char} : ts.matches s = true ↔ ts.Fits s := by
  induction ts generalizing s with
  | nil =>
    rw [Pattern.matches, List.isEmpty_iff]
    exact ⟨fun h => h ▸ .nil, fun h => by cases h; rfl⟩
  | cons t ts ih =>
    cases t with
    | sequence =>
      rw [Pattern.matches, afterSequence_iff]
      constructor
      · rintro ⟨w, r, rfl, hw, hr⟩
        exact .sequence hw (ih.1 hr)
      · intro h
        cases h with
        | one h => cases h
        | sequence hw rest => exact ⟨_, _, rfl, hw, ih.2 rest⟩
    | recursive =>
      rw [Pattern.matches, Bool.or_eq_true, afterSlash_iff]
      constructor
      · rintro (h | ⟨w, r, rfl, hw, hr⟩)
        · exact .recursive (.inl rfl) (ih.1 h)
        · exact .recursive (.inr hw) (ih.1 hr)
      · intro h
        cases h with
        | one h => cases h
        | recursive hw rest =>
          rcases hw with rfl | hw
          · exact .inl (ih.2 rest)
          · exact .inr ⟨_, _, rfl, hw, ih.2 rest⟩
    -- Every other token takes exactly one character.
    | _ =>
      refine Iff.trans ?_ (fits_cons_iff ?_ ?_).symm
      · cases s with
        | nil => simp [Pattern.matches]
        | cons c s =>
          simp only [Pattern.matches, Bool.and_eq_true, ih]
          exact ⟨fun h => ⟨c, s, rfl, h⟩, by rintro ⟨_, _, ⟨⟩, h⟩; exact h⟩
      · exact nofun
      · exact nofun

end ComponentAudit.Glob
