import ComponentAudit.Proofs.Offset.Markup

/-!
# Growth of the table of sites

All active scans share one table of sites. They add to it, set ends, props and spreads in it, and
cut it back when what looked like a tag is none, while scans further out hold indices of it.

`Gives x Q` says of a run that whatever it comes to has the property; it may halt. For a loop this
follows from what a turn does (`loop_gives`), since an answer comes out of a state that the loop has
reached (`Reaches`). What a run may do to the table is either to add to it, `table <+: table'`, or,
inside of a tag, to change entries from some index on only (`KeptBelow`). A tag begins with what was
in the table before it as the part that is kept, so cutting back to that part restores the table
when the tag turns out to be none (`readTag_gives`).
-/

namespace ComponentAudit.Offset

open Script

/-! ### Results of runs -/

/-- If the run comes to a result, that has the property. -/
def Gives {α : Type} (x : Checked α) (Q : α → Prop) : Prop := ∀ a, x = .ok a → Q a

namespace Gives

variable {α β : Type} {x : Checked α} {Q Q' : α → Prop} {P : β → Prop} {f : α → Checked β}

theorem ok {a : α} (h : Q a) : Gives (.ok a) Q := by
  rintro _ ⟨⟩
  exact h

theorem error (h : Halt) : Gives (.error h) Q := nofun

theorem mono (hx : Gives x Q) (h : ∀ a, Q a → Q' a) : Gives x Q' := fun a ha => h a (hx a ha)

theorem bind (hx : Gives x Q) (hf : ∀ a, Q a → Gives (f a) P) : Gives (x >>= f) P := by
  cases x with
  | ok a => exact hf a (hx a rfl)
  | error h => exact error h

/-- A run whose result does not matter. -/
theorem after (x : Checked α) (hf : ∀ a, Gives (f a) P) : Gives (x >>= f) P :=
  bind (Q := fun _ => True) (fun _ _ => trivial) fun a _ => hf a

end Gives

/-! ### States of loops -/

section Loop

variable {σ ρ : Type} {bound : Nat} {step : σ → Nat → Checked (Turn σ ρ)} {finish : σ → Nat → ρ}
  {st st' st'' : σ} {i j k : Nat}

/-- A loop in the state `st` at `i` comes to the state `st'` at `j`. -/
inductive Reaches (bound : Nat) (step : σ → Nat → Checked (Turn σ ρ)) (st : σ) (i : Nat) :
    σ → Nat → Prop
  | start : Reaches bound step st i st i
  | turn {st' st'' : σ} {j k : Nat} : Reaches bound step st i st' j → j < bound →
      step st' j = .ok (.next st'' k) → Reaches bound step st i st'' k

/-- A run that goes on. -/
theorem Reaches.trans (h : Reaches bound step st i st' j) (h' : Reaches bound step st' j st'' k) :
    Reaches bound step st i st'' k := by
  induction h' with
  | start => exact h
  | turn _ hlt hturn ih => exact .turn ih hlt hturn

/-- What a turn comes to has the property: the state in which the loop goes on, or its answer. -/
def Turn.Has (P : σ → Prop) (R : ρ → Prop) : Turn σ ρ → Prop
  | .done r => R r
  | .next st _ => P st

/-- What every turn keeps holds in all states of the loop. -/
theorem Reaches.invariant {P : σ → Prop} {R : ρ → Prop} (h : Reaches bound step st i st' j)
    (hst : P st) (hstep : ∀ st k, P st → Gives (step st k) (Turn.Has P R)) : P st' := by
  induction h with
  | start => exact hst
  | turn _ _ hturn ih => exact hstep _ _ ih _ hturn

/-- The answer of a loop comes out of a state that it reaches. -/
theorem exists_reaches_of_loop {r : ρ} (h : loop bound step finish st i = .ok r) :
    ∃ st' j, Reaches bound step st i st' j ∧
      (r = finish st' j ∨ step st' j = .ok (.done r)) := by
  induction hleft : bound - i using Nat.strongRecOn generalizing st i with
  | _ left ih =>
  by_cases hlt : i < bound
  · cases hs : step st i with
    | error e =>
      rw [loop_error hlt hs] at h
      cases h
    | ok turn =>
      cases turn with
      | done r' =>
        rw [loop_done hlt hs] at h
        cases h
        exact ⟨st, i, .start, .inr hs⟩
      | next st' j =>
        by_cases hij : i < j
        · rw [loop_next hlt hs hij] at h
          obtain ⟨st'', k, hreach, hanswer⟩ := ih _ (by omega) h rfl
          exact ⟨st'', k, (Reaches.turn .start hlt hs).trans hreach, hanswer⟩
        · rw [loop, if_pos hlt, hs] at h
          simp only [if_neg hij] at h
          cases h
  · rw [loop_finish (Nat.le_of_not_lt hlt)] at h
    cases h
    exact ⟨st, i, .start, .inl rfl⟩

/-- A loop gives what its turns give, or what its end makes of a state. -/
theorem loop_gives {P : σ → Prop} {R : ρ → Prop}
    (hstep : ∀ st k, P st → Gives (step st k) (Turn.Has P R))
    (hfinish : ∀ st k, P st → R (finish st k)) (hst : P st) (i : Nat) :
    Gives (loop bound step finish st i) R := by
  intro r h
  obtain ⟨st', j, hreach, hanswer⟩ := exists_reaches_of_loop h
  have hst' : P st' := hreach.invariant hst hstep
  rcases hanswer with rfl | hdone
  · exact hfinish st' j hst'
  · exact hstep st' j hst' _ hdone

end Loop

/-! ### Changes to the table -/

variable {text : List Char} {table table' table'' : List Site} {n : Nat}

/-- The entries with an index below `n` are as they were, and the table has become no shorter. -/
structure KeptBelow (n : Nat) (table table' : List Site) : Prop where
  length_le : table.length ≤ table'.length
  getElem?_eq : ∀ k < n, table'[k]? = table[k]?

namespace KeptBelow

theorem refl (n : Nat) (table : List Site) : KeptBelow n table table :=
  ⟨Nat.le_refl _, fun _ _ => rfl⟩

theorem trans (h : KeptBelow n table table') (h' : KeptBelow n table' table'') :
    KeptBelow n table table'' :=
  ⟨Nat.le_trans h.length_le h'.length_le, fun k hk =>
    (h'.getElem?_eq k hk).trans (h.getElem?_eq k hk)⟩

/-- What is only added to changes nothing before its end. -/
theorem of_isPrefix (h : table <+: table') (hn : n ≤ table.length) : KeptBelow n table table' := by
  obtain ⟨added, rfl⟩ := h
  refine ⟨by simp, fun k hk => ?_⟩
  exact List.getElem?_append_left (Nat.lt_of_lt_of_le hk hn)

/-- When all that was there before is kept, what was added to is still added to. -/
theorem isPrefix (h' : KeptBelow table.length table' table'') (h : table <+: table') :
    table <+: table'' := by
  have hkept := (of_isPrefix h (Nat.le_refl _)).trans h'
  rw [List.prefix_iff_getElem?]
  intro k hk
  rw [hkept.getElem?_eq k hk, List.getElem?_eq_getElem hk]

end KeptBelow

/-- A change to one entry changes no other. -/
theorem updateAt_gives (table : List Site) (i : Nat) (f : Site → Site) :
    Gives (updateAt table i f) fun table' =>
      table'.length = table.length ∧ ∀ k, k ≠ i → table'[k]? = table[k]? := by
  unfold updateAt
  split
  · exact .ok ⟨List.length_set, fun k hk => List.getElem?_set_ne hk.symm⟩
  · exact .error _

/-- A change from `n` on keeps what is below. -/
theorem updateAt_keptBelow {i : Nat} (hi : n ≤ i) (table : List Site) (f : Site → Site) :
    Gives (updateAt table i f) (KeptBelow n table) :=
  (updateAt_gives table i f).mono fun _ h =>
    ⟨Nat.le_of_eq h.1.symm, fun k hk => h.2 k (Nat.ne_of_lt (Nat.lt_of_lt_of_le hk hi))⟩

private theorem push_gives (settings : ScanSettings) (table : List Site) (tag name : List Char)
    (start : Nat) :
    Gives (push settings table tag name start) fun table' =>
      table <+: table' ∧ table.length < table'.length :=
  .after _ fun site => .ok ⟨List.prefix_append table [site], by simp⟩

/-- A scan that adds to the table and leaves alone what is in it. -/
def Adds (scan : Scan) : Prop :=
  ∀ (table : List Site) (lo bound : Nat), Gives (scan table lo bound) (table <+: ·)

theorem adds_nothing : Adds fun table _ _ => return table :=
  fun table _ _ => .ok (List.prefix_refl table)

/-! ### Attributes -/

section Attributes

variable {scan : Scan} {flavor : Flavor} {site : Option Nat} {bound : Nat}

/-- The site of a tag is changed, if it has one. -/
theorem onSite_keptBelow (hsite : ∀ k ∈ site, n ≤ k) (table : List Site)
    {f : Nat → Checked (List Site)} (hf : ∀ k, n ≤ k → Gives (f k) (KeptBelow n table)) :
    Gives (onSite site table f) (KeptBelow n table) := by
  cases site with
  | none => exact .ok (.refl n table)
  | some k => exact hf k (hsite k rfl)

private theorem applyAttribute_keptBelow {i : Nat} (hi : n ≤ i) (table : List Site)
    (flavor : Flavor) (attr : List Char) (value : AttrValue) :
    Gives (applyAttribute table flavor attr value i) (KeptBelow n table) := by
  refine .after _ fun m => ?_
  split
  · exact .ok (.refl n table)
  · exact updateAt_keptBelow hi table _

/-- Reading a value adds what a scan of the value adds. -/
theorem attrValue_gives (hscan : Adds scan) (text : List Char) (flavor : Flavor)
    (table : List Site) (v bound : Nat) :
    Gives (attrValue text scan flavor table v bound) fun x => table <+: x.2 := by
  have hsame : ∀ x : Option (AttrValue × Nat), Gives (.ok (x, table)) fun x => table <+: x.2 :=
    fun _ => .ok (List.prefix_refl table)
  unfold attrValue
  split
  · exact hsame none
  refine .after _ fun u => ?_
  split
  · refine .after _ fun rest => ?_
    split
    · exact hsame none
    · exact .after _ fun _ => hsame _
  split
  · refine .after _ fun close? => ?_
    split
    · exact hsame none
    · next close =>
      have hexpr : ∀ added : List Site, table <+: added → Gives
          (do return (some (AttrValue.expr (← slice text (v + 1) close), close + 1), added))
          fun x : Option (AttrValue × Nat) × List Site => table <+: x.2 :=
        fun _ hadded => .after _ fun _ => .ok hadded
      dsimp only
      split
      · exact (hscan table _ _).bind hexpr
      · exact hexpr table (List.prefix_refl table)
  · split
    · exact .after _ fun _ => .after _ fun _ => hsame _
    · exact hsame none

/-- A turn among the attributes keeps what is below `n`, whether it ends the tag or not. -/
def AttributesKeep (n : Nat) (table : List Site) : Turn (List Site) TagEnd → Prop :=
  Turn.Has (KeptBelow n table) fun r => KeptBelow n table r.2

private theorem braceTurn_gives (hsite : ∀ k ∈ site, n ≤ k) (text : List Char) (bound : Nat)
    (table : List Site) (j : Nat) :
    Gives (braceTurn text site bound table j) (AttributesKeep n table) := by
  refine .after _ fun close? => ?_
  split
  · exact .ok (KeptBelow.refl n table)
  · refine .after _ fun inner => ?_
    split
    · exact (onSite_keptBelow hsite table fun _ hk => updateAt_keptBelow hk table _).bind
        fun _ hkept => .ok hkept
    · exact .ok (KeptBelow.refl n table)

/-- An attribute changes the entry of its tag and adds those in its value. -/
theorem attributeTurn_gives (hscan : Adds scan) (hsite : ∀ k ∈ site, n ≤ k)
    (hn : n ≤ table.length) (text : List Char) (flavor : Flavor) (bound j : Nat) :
    Gives (attributeTurn text scan flavor site bound table j) (AttributesKeep n table) := by
  refine .after _ fun stop => .after _ fun attr => .after _ fun eq => .after _ fun b => ?_
  extract_lets rest
  -- The value may have added sites; then the attribute goes into the entry of the tag.
  have hrest : ∀ x : Option (AttrValue × Nat) × List Site, table <+: x.2 →
      Gives (rest x) (AttributesKeep n table) := by
    rintro ⟨value?, added⟩ hadded
    have hkept : KeptBelow n table added := .of_isPrefix hadded hn
    cases value? with
    | none => exact .ok hkept
    | some value =>
      refine (onSite_keptBelow hsite added fun _ hk => ?_).bind fun _ happlied =>
        .ok (hkept.trans happlied)
      exact applyAttribute_keptBelow hk added flavor attr value.1
  split
  · exact .after _ fun v => (attrValue_gives hscan text flavor table v bound).bind hrest
  · exact hrest (some (.bare, stop), table) (List.prefix_refl table)

private theorem tagTurn_gives (hscan : Adds scan) (hsite : ∀ k ∈ site, n ≤ k)
    (hn : n ≤ table.length) (text : List Char) (flavor : Flavor) (bound j : Nat) :
    Gives (tagTurn text scan flavor site bound table j) (AttributesKeep n table) := by
  have hsame : ∀ turn : Turn (List Site) TagEnd, AttributesKeep n table turn →
      Gives (.ok turn) (AttributesKeep n table) := fun _ => .ok
  have hrefl := KeptBelow.refl n table
  refine .after _ fun k => .after _ fun comment? => ?_
  split
  · exact hsame _ hrefl
  split
  · exact hsame _ hrefl
  refine .after _ fun u => .after _ fun closes => ?_
  split
  · exact hsame _ hrefl
  split
  · exact hsame _ hrefl
  split
  · exact braceTurn_gives hsite text bound table k
  split
  · exact attributeTurn_gives hscan hsite hn text flavor bound k
  · exact hsame _ hrefl

/-- In all states of the walk over the attributes, what is below `n` is as it was before. -/
theorem keptBelow_of_reaches (hscan : Adds scan) (hsite : ∀ k ∈ site, n ≤ k)
    (hn : n ≤ table.length) {i j : Nat}
    (h : Reaches bound (tagTurn text scan flavor site bound) table i table' j) :
    KeptBelow n table table' :=
  h.invariant (.refl n table) fun table' k hkept =>
    (tagTurn_gives hscan hsite (Nat.le_trans hn hkept.length_le) text flavor bound k).mono
      fun turn hturn => by
        cases turn with
        | done r => exact hkept.trans hturn
        | next st j => exact hkept.trans hturn

/-- The attributes of a tag keep what is below the entry of the tag. -/
theorem tagTurns_gives (hscan : Adds scan) (hsite : ∀ k ∈ site, n ≤ k) (hn : n ≤ table.length)
    (text : List Char) (flavor : Flavor) (bound j : Nat) :
    Gives (tagTurns text scan flavor site bound table j) fun r => KeptBelow n table r.2 := by
  intro r h
  obtain ⟨table', k, hreach, hanswer⟩ := exists_reaches_of_loop h
  have hkept := keptBelow_of_reaches hscan hsite hn hreach
  rcases hanswer with rfl | hdone
  · exact hkept
  · have hturn := tagTurn_gives hscan hsite (Nat.le_trans hn hkept.length_le) text flavor bound k
    exact hkept.trans (hturn _ hdone)

end Attributes

/-! ### Tags -/

/-- What the reading of a tag leaves: the table as it was when there is no tag, and else the table
with sites added, the first of which is the one of the tag, if it has one. -/
structure TagLeaves (table : List Site) (x : Option Tag × List Site) : Prop where
  rejected : x.1 = none → x.2 = table
  added : table <+: x.2
  site : ∀ tag ∈ x.1, ∀ k ∈ tag.site, k = table.length ∧ k < x.2.length

theorem TagLeaves.nothing (table : List Site) : TagLeaves table (none, table) :=
  ⟨fun _ => rfl, List.prefix_refl table, nofun⟩

/-- The site of a tag goes to the end of the table. -/
theorem pushTag_gives (settings : ScanSettings) (table : List Site) (name : List Char) (lt : Nat) :
    Gives (pushTag settings table name lt) fun x =>
      table <+: x.2 ∧ ∀ k ∈ x.1, k = table.length ∧ k < x.2.length := by
  unfold pushTag
  split
  · exact .ok ⟨List.prefix_refl table, nofun⟩
  · next canonical _ =>
    refine (push_gives settings table name canonical lt).bind fun pushed hpushed => .ok ?_
    refine ⟨hpushed.1, fun k hk => ?_⟩
    obtain rfl : table.length = k := Option.some.inj hk
    exact ⟨rfl, hpushed.2⟩

/-- **The reading of a tag** leaves the entries that were there, and the table as it was if there is
no tag. -/
theorem readTag_gives {scan : Scan} (hscan : Adds scan) (settings : ScanSettings)
    (text : List Char) (flavor : Flavor) (table : List Site) (lt bound : Nat) :
    Gives (readTag settings text scan flavor table lt bound) (TagLeaves table) := by
  have hnone : Gives (.ok (none, table)) (TagLeaves table) := .ok (.nothing table)
  unfold readTag
  split
  · exact hnone
  refine .after _ fun u => ?_
  split
  · refine .ok ⟨nofun, List.prefix_refl table, fun tag htag => ?_⟩
    cases htag
    exact nofun
  split
  · exact hnone
  refine .after _ fun nameEnd => .after _ fun ends => ?_
  split
  · exact hnone
  refine .after _ fun name => ?_
  refine (pushTag_gives settings table name lt).bind fun ⟨site, pushed⟩ ⟨hpushed, hsite⟩ => ?_
  have hfrom : ∀ k ∈ site, table.length ≤ k := fun k hk => Nat.le_of_eq (hsite k hk).1.symm
  refine (tagTurns_gives hscan hfrom hpushed.length_le text flavor bound nameEnd).bind
    fun r hr => ?_
  have hadded : table <+: r.2 := hr.isPrefix hpushed
  split
  · -- The entry of the tag and all that came after it are cut off.
    have hcut := List.prefix_iff_eq_take.1 hadded
    exact .ok ⟨fun _ => hcut.symm, hcut ▸ List.prefix_refl table, nofun⟩
  · next selfClosing stop after =>
    refine .ok ⟨nofun, hadded, fun tag htag k hk => ?_⟩
    cases htag
    exact ⟨(hsite k hk).1, Nat.lt_of_lt_of_le (hsite k hk).2 hr.length_le⟩

/-! ### Calls -/

/-- A call adds its site, and changes no other. -/
theorem callAt_gives (settings : ScanSettings) (text : List Char) (table : List Site)
    (start j bound : Nat) :
    Gives (callAt settings text table start j bound) (table <+: ·) := by
  have hnone : Gives (.ok table) (table <+: ·) := .ok (List.prefix_refl table)
  refine .after _ fun paren => .after _ fun opens => ?_
  split
  · refine .after _ fun close? => .after _ fun called? => ?_
    split
    · exact hnone
    split
    · exact hnone
    · next name _ =>
      have hn := Nat.le_refl table.length
      refine (push_gives settings table _ name start).bind fun pushed hpushed => ?_
      refine (updateAt_keptBelow hn pushed _).bind fun ended hended => ?_
      have hadded := hended.isPrefix hpushed.1
      refine .after _ fun body? => ?_
      split
      · exact .ok hadded
      · exact .after _ fun o => (updateAt_keptBelow hn ended _).mono fun _ happlied =>
          happlied.isPrefix hadded
  · exact hnone

end ComponentAudit.Offset
