import ComponentAudit.Proofs.Offset.Expression

/-!
# Progress of the loops over tokens

A run on byte offsets is stopped with `Halt.stalled` when a turn of a loop does not go forward, so
that the loops are functions at all. This module and the next show that it never comes to that, for
whatever text, offset and bound, also where a read fails or a cut falls inside a character.

`Proceeds x Q` is the statement about a run: it does not stall, and a result has the property. It is
composed along the run (`Proceeds.bind`), and for a loop it follows from what one turn does
(`Proceeds.loop`): a turn that ends the loop has the property, and one that goes on goes strictly
forward. What each token adds is where it ends: after its first byte, and not beyond the bound.
-/

namespace ComponentAudit.Offset

open Script

/-- The run does not stall, and a result has the property. -/
def Proceeds {α : Type} (x : Checked α) (Q : α → Prop) : Prop :=
  match x with
  | .ok a => Q a
  | .error h => h ≠ .stalled

/-- A turn at `i` ends the loop with an answer that has the property, or goes strictly forward. -/
def Turn.Keeps {σ ρ : Type} (i : Nat) (P : Nat → Prop) (Q : ρ → Prop) : Turn σ ρ → Prop
  | .done r => Q r
  | .next _ j => i < j ∧ P j

namespace Proceeds

variable {α β σ ρ : Type} {x : Checked α} {Q Q' : α → Prop}

theorem mono (hx : Proceeds x Q) (h : ∀ a, Q a → Q' a) : Proceeds x Q' := by
  cases x with
  | ok a => exact h a hx
  | error e => exact hx

/-- What proceeds does not stall. -/
theorem ne_stalled (hx : Proceeds x Q) : x ≠ .error .stalled := by
  rintro rfl
  exact hx rfl

theorem of_ne_stalled (h : x ≠ .error .stalled) : Proceeds x fun _ => True := by
  cases x with
  | ok a => trivial
  | error e => exact fun he => h (congrArg Except.error he)

/-- Steps that proceed one after the other. -/
theorem bind (hx : Proceeds x Q) {f : α → Checked β} {P : β → Prop}
    (hf : ∀ a, Q a → Proceeds (f a) P) : Proceeds (x >>= f) P := by
  cases x with
  | ok a => exact hf a hx
  | error e => exact hx

/-- A loop whose turns go forward comes to an end, with what its last turn or its end gives. -/
theorem loop {bound : Nat} {step : σ → Nat → Checked (Turn σ ρ)} {finish : σ → Nat → ρ}
    {P : Nat → Prop} {R : ρ → Prop}
    (hstep : ∀ st k, P k → k < bound → Proceeds (step st k) (Turn.Keeps k P R))
    (hfinish : ∀ st k, P k → bound ≤ k → R (finish st k)) {i : Nat} (st : σ) (hi : P i) :
    Proceeds (Offset.loop bound step finish st i) R := by
  induction hleft : bound - i using Nat.strongRecOn generalizing st i with
  | _ left ih =>
  by_cases hlt : i < bound
  · have hturn := hstep st i hi hlt
    cases hs : step st i with
    | error e =>
      rw [hs] at hturn
      rw [loop_error hlt hs]
      exact hturn
    | ok turn =>
      rw [hs] at hturn
      cases turn with
      | done r =>
        rw [loop_done hlt hs]
        exact hturn
      | next st' j =>
        obtain ⟨hij, hj⟩ := hturn
        rw [loop_next hlt hs hij]
        exact ih _ (by omega) st' hj rfl
  · rw [loop_finish (Nat.le_of_not_lt hlt)]
    exact hfinish st i hi (Nat.le_of_not_lt hlt)

/-- The turns of a loop are not before the offset at which it starts. -/
theorem loop_from {lo bound : Nat} {step : σ → Nat → Checked (Turn σ ρ)} {finish : σ → Nat → ρ}
    {P : Nat → Prop} {R : ρ → Prop}
    (hstep : ∀ st k, lo ≤ k → k < bound → Proceeds (step st k) (Turn.Keeps k P R))
    (hfinish : ∀ st k, R (finish st k)) (st : σ) :
    Proceeds (Offset.loop bound step finish st lo) R := by
  refine loop (P := fun k => lo ≤ k) (fun st k hk hlt => ?_) (fun st k _ _ => hfinish st k) st
    (Nat.le_refl lo)
  refine (hstep st k hk hlt).mono fun turn hturn => ?_
  cases turn with
  | done r => exact hturn
  | next st' j => exact ⟨hturn.1, Nat.le_trans hk (Nat.le_of_lt hturn.1)⟩

end Proceeds

variable {text : List Char} {i bound : Nat}

/-- A read gives the byte that is there. -/
theorem byteAt_proceeds (text : List Char) (i : Nat) :
    Proceeds (byteAt text i) fun u => byteAt text i = .ok u := by
  unfold byteAt
  split
  · rfl
  · exact Halt.noConfusion

/-- A part is as long as the distance of its ends. -/
theorem part_proceeds (hay : List Char) (i j : Nat) :
    Proceeds (part hay i j) fun t => t.length = j - i := by
  unfold part
  split
  · simp only [Proceeds, List.length_drop, List.length_take]
    omega
  · exact Halt.noConfusion

/-- A slice gives the characters that are there. -/
theorem slice_proceeds (text : List Char) (i j : Nat) :
    Proceeds (slice text i j) fun s => slice text i j = .ok s := by
  unfold slice
  split
  · split
    · rfl
    · exact Halt.noConfusion
  · exact Halt.noConfusion

/-- A text that is cut out takes up the bytes between the two offsets. -/
theorem byteSize_of_slice {s : List Char} {j : Nat} (h : slice text i j = .ok s) :
    i + Text.byteSize s = j := by
  obtain ⟨n, e, hspan, rfl, rfl⟩ := exists_span_of_slice h
  exact hspan.offset_stop.symm

/-! ### Words, strings and comments -/

/-- Passing over bytes does not go back, nor past the end. -/
theorem passWhile_proceeds (p : Char → Bool) (text : List Char) (i bound : Nat) :
    Proceeds (passWhile p text i bound) fun j => i ≤ j ∧ (i ≤ bound → j ≤ bound) := by
  refine Proceeds.loop (P := fun k => i ≤ k ∧ (i ≤ bound → k ≤ bound)) (fun _ k hk hlt => ?_)
    (fun _ k hk _ => hk) () ⟨Nat.le_refl _, id⟩
  refine (byteAt_proceeds text k).bind fun u _ => ?_
  split
  · exact ⟨Nat.lt_succ_self k, by omega, fun _ => hlt⟩
  · exact hk

/-- A word that is there has a first byte. -/
theorem passWhile_lt {p : Char → Bool} {u : Char} (h : i < bound) (hu : byteAt text i = .ok u)
    (hp : p u = true) : Proceeds (passWhile p text i bound) fun j => i < j ∧ j ≤ bound := by
  have hstep : whileStep p text () i = .ok (.next () (i + 1)) := by
    rw [whileStep, hu, ok_bind, if_pos hp]
    rfl
  rw [passWhile, loop_next h hstep (Nat.lt_succ_self i)]
  exact (passWhile_proceeds p text (i + 1) bound).mono fun j hj => ⟨hj.1, hj.2 h⟩

/-- A string literal goes on past its quote and ends within the text. -/
theorem stringEnd_proceeds (text : List Char) (h : i < bound) :
    Proceeds (stringEnd text i bound) fun j => i < j ∧ j ≤ bound := by
  refine (byteAt_proceeds text i).bind fun quote _ => ?_
  refine Proceeds.loop (P := fun k => i < k) (fun _ k hk hlt => ?_)
    (fun _ _ _ _ => ⟨h, Nat.le_refl _⟩) () (Nat.lt_succ_self i)
  refine (byteAt_proceeds text k).bind fun u _ => ?_
  split
  · exact ⟨by omega, by omega⟩
  split
  · exact ⟨hk, Nat.le_of_lt hlt⟩
  split
  · exact ⟨by omega, hlt⟩
  · exact ⟨Nat.lt_succ_self k, by omega⟩

private theorem blockCommentEnd_proceeds (text : List Char) (h : i + 1 < bound) :
    Proceeds (blockCommentEnd text i bound) fun j => i < j ∧ j ≤ bound := by
  refine Proceeds.loop (P := fun k => i < k) (fun _ k hk hlt => ?_)
    (fun _ _ _ _ => ⟨by omega, Nat.le_refl _⟩) () (by omega)
  have hnext : k < k + 1 ∧ i < k + 1 := by omega
  refine (byteAt_proceeds text k).bind fun u _ => ?_
  split
  · refine (byteAt_proceeds text (k + 1)).bind fun v _ => ?_
    split
    · exact ⟨by omega, by omega⟩
    · exact hnext
  · exact hnext

/-- A comment ends after its slash, in the region. -/
theorem commentEnd?_proceeds (text : List Char) (i bound : Nat) :
    Proceeds (commentEnd? text i bound) fun j? => ∀ j ∈ j?, i < j ∧ j ≤ bound := by
  have hnone : Proceeds (return none) fun j? : Option Nat => ∀ j ∈ j?, i < j ∧ j ≤ bound :=
    fun _ hj => nomatch hj
  have hsome : ∀ {x : Checked Nat}, (Proceeds x fun j => i < j ∧ j ≤ bound) →
      Proceeds (do return some (← x)) fun j? => ∀ j ∈ j?, i < j ∧ j ≤ bound := fun hx =>
    hx.bind fun j hj k hk => by
      cases hk
      exact hj
  unfold commentEnd?
  split
  · exact hnone
  next hlt =>
  refine (byteAt_proceeds text i).bind fun u hu => ?_
  split
  · exact hnone
  next hslash =>
  refine (byteAt_proceeds text (i + 1)).bind fun v _ => ?_
  split
  · refine hsome (passWhile_lt (by omega) hu ?_)
    rw [Classical.not_not.1 hslash]
    rfl
  split
  · exact hsome (blockCommentEnd_proceeds text (by omega))
  · exact hnone

/-! ### Regular expressions -/

private theorem passBack_proceeds (p : Char → Bool) (text : List Char) (lo k : Nat) :
    Proceeds (passBack p text lo k) fun _ => True := by
  induction k with
  | zero => trivial
  | succ k ih =>
    rw [passBack]
    split
    · refine (byteAt_proceeds text k).bind fun u _ => ?_
      split
      · exact ih
      · trivial
    · trivial

private theorem lastSignificant?_proceeds (text : List Char) (lo i : Nat) :
    Proceeds (lastSignificant? text lo i) fun _ => True := by
  refine (passBack_proceeds _ text lo i).bind fun k _ => ?_
  split
  · exact (byteAt_proceeds text (k - 1)).bind fun _ _ => trivial
  · trivial

/-- The look at what comes before ends. -/
theorem mayStart_proceeds (text : List Char) (lo i : Nat) :
    Proceeds (mayStart text lo i) fun _ => True := by
  refine (lastSignificant?_proceeds text lo i).bind fun last _ => ?_
  split
  · trivial
  · split
    · refine (passBack_proceeds _ text lo _).bind fun start _ => ?_
      exact (part_proceeds _ start _).bind fun _ _ => trivial
    · trivial

private theorem regexBodyEnd_proceeds (text : List Char) (h : i < bound) :
    Proceeds (regexBodyEnd text i bound) fun j => j ≤ bound := by
  refine Proceeds.loop (P := fun _ => True) (R := fun j => j ≤ bound) (fun inClass k _ hlt => ?_)
    (fun _ _ _ _ => h) _ trivial
  refine (byteAt_proceeds text k).bind fun u _ => ?_
  split
  · exact ⟨by omega, trivial⟩
  split
  · exact h
  split
  · exact ⟨Nat.lt_succ_self k, trivial⟩
  split
  · exact ⟨Nat.lt_succ_self k, trivial⟩
  split
  · exact (passWhile_proceeds _ text (k + 1) bound).bind fun j hj => hj.2 hlt
  · exact ⟨Nat.lt_succ_self k, trivial⟩

/-- A regular expression ends after its slash, in the region. -/
theorem regexEnd?_proceeds (text : List Char) (lo i bound : Nat) :
    Proceeds (regexEnd? text lo i bound) fun j? => ∀ j ∈ j?, i < j ∧ j ≤ bound := by
  have hnone : Proceeds (return none) fun j? : Option Nat => ∀ j ∈ j?, i < j ∧ j ≤ bound :=
    fun _ hj => nomatch hj
  refine (byteAt_proceeds text i).bind fun u _ => ?_
  split
  · exact hnone
  next hslash =>
  have hlt : i < bound := by
    simp only [Bool.or_eq_true, decide_eq_true_eq, not_or] at hslash
    omega
  refine (byteAt_proceeds text (i + 1)).bind fun v _ => ?_
  split
  · exact hnone
  refine (lastSignificant?_proceeds text lo i).bind fun last _ => ?_
  split
  · exact hnone
  refine (mayStart_proceeds text lo i).bind fun b _ => ?_
  split
  · exact hnone
  refine (regexBodyEnd_proceeds text hlt).bind fun stop hstop => ?_
  split
  · intro j hj
    cases hj
    exact ⟨by omega, hstop⟩
  · exact hnone

/-! ### Brackets -/

/-- A turn in a template literal goes forward. -/
theorem templateTurn_proceeds (text : List Char) (bound : Nat) (outer : List Context) (i : Nat) :
    Proceeds (templateTurn text bound outer i)
      (Turn.Keeps i (fun _ => True) fun close? => ∀ c ∈ close?, c = i) := by
  refine (byteAt_proceeds text i).bind fun u _ => ?_
  split
  · exact ⟨by omega, trivial⟩
  split
  · split
    · intro c hc
      cases hc
      rfl
    · exact ⟨Nat.lt_succ_self i, trivial⟩
  split
  · refine (byteAt_proceeds text (i + 1)).bind fun v _ => ?_
    split
    · exact ⟨by omega, trivial⟩
    · exact ⟨Nat.lt_succ_self i, trivial⟩
  · exact ⟨Nat.lt_succ_self i, trivial⟩

/-- So does a turn in the code between brackets. -/
theorem codeTurn_proceeds (text : List Char) (lo : Nat) (contexts : List Context)
    (h : i < bound) :
    Proceeds (codeTurn text lo bound contexts i)
      (Turn.Keeps i (fun _ => True) fun close? => ∀ c ∈ close?, c = i) := by
  refine (commentEnd?_proceeds text i bound).bind fun j? hj => ?_
  split
  · exact ⟨(hj _ rfl).1, trivial⟩
  refine (regexEnd?_proceeds text lo i bound).bind fun j? hj => ?_
  split
  · exact ⟨(hj _ rfl).1, trivial⟩
  refine (byteAt_proceeds text i).bind fun u _ => ?_
  split
  · exact (stringEnd_proceeds text h).bind fun j hj => ⟨hj.1, trivial⟩
  split
  · exact ⟨Nat.lt_succ_self i, trivial⟩
  split
  · split
    · intro c hc
      cases hc
      rfl
    · exact ⟨Nat.lt_succ_self i, trivial⟩
    · exact ⟨Nat.lt_succ_self i, trivial⟩
  · exact ⟨Nat.lt_succ_self i, trivial⟩

/-- A turn of the search for a closing bracket goes forward, or has found it. -/
theorem bracketTurn_proceeds (text : List Char) (lo : Nat) (contexts : List Context)
    (h : i < bound) :
    Proceeds (bracketTurn text lo bound contexts i)
      (Turn.Keeps i (fun _ => True) fun close? => ∀ c ∈ close?, c = i) := by
  unfold bracketTurn
  split
  · exact fun _ hc => nomatch hc
  · exact templateTurn_proceeds text bound _ i
  · exact codeTurn_proceeds text lo _ h

/-- A closing bracket stands after the opening one, in the region. -/
theorem closeOffset?_proceeds (text : List Char) (i bound : Nat) :
    Proceeds (closeOffset? text i bound) fun close? => ∀ c ∈ close?, i < c ∧ c < bound := by
  unfold closeOffset?
  split
  · exact fun _ hc => nomatch hc
  refine Proceeds.loop (P := fun k => i < k) (fun contexts k hk hlt => ?_)
    (fun _ _ _ _ _ hc => nomatch hc) _ (Nat.lt_succ_self i)
  refine (bracketTurn_proceeds text (i + 1) contexts hlt).mono fun turn hturn => ?_
  cases turn with
  | done close? =>
    intro c hc
    rw [hturn c hc]
    exact ⟨hk, hlt⟩
  | next contexts' j => exact ⟨hturn.1, Nat.lt_trans hk hturn.1⟩

/-- A turn of the split goes forward, within the bound. -/
theorem splitTurn_proceeds (text : List Char) (sep : Char) (st : Nat × List (List Char))
    (h : i < bound) :
    Proceeds (splitTurn text sep bound st i) (Turn.Keeps i (· ≤ bound) fun _ => True) := by
  refine (commentEnd?_proceeds text i bound).bind fun j? hj => ?_
  split
  · exact hj _ rfl
  refine (byteAt_proceeds text i).bind fun u _ => ?_
  split
  · exact (stringEnd_proceeds text h).bind fun j hj => hj
  split
  · refine (closeOffset?_proceeds text i bound).bind fun close? hclose => ?_
    cases close? with
    | none => exact ⟨h, Nat.le_refl _⟩
    | some c =>
      obtain ⟨hlt, hle⟩ := hclose c rfl
      exact ⟨Nat.lt_succ_of_lt hlt, hle⟩
  split
  · exact (slice_proceeds text st.1 i).bind fun _ _ => ⟨Nat.lt_succ_self i, h⟩
  · exact ⟨Nat.lt_succ_self i, h⟩

end ComponentAudit.Offset
