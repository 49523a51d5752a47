import ComponentAudit.Proofs.Script.Piece
import ComponentAudit.Script.ObjectLiteral

/-!
# Object literals as lists of entries

The body of an object literal is cut at its commas. A text *stays whole* when no cut falls into it,
and texts that stay whole, written with commas between them, are the pieces again
(`splitTopLevel_listing`). What the literal says about props is then what its pieces contribute, one
after another (`readObject?_of_contributions`).
-/

namespace ComponentAudit.Script

/-! ### Pieces -/

/-- The splitting at the separator goes through the text without a cut. -/
def StaysWhole (sep : Char) (t : List Char) : Prop :=
  ∀ piece rest : List Char,
    splitWalk sep piece 0 (t ++ rest) = splitWalk sep (t.reverse ++ piece) 0 rest

/-- Texts with a comma and a blank between them. -/
def listing : List (List Char) → List Char
  | [] => []
  | t :: ts => t ++ ts.flatMap fun t => ',' :: ' ' :: t

section

variable {sep : Char}

/-- Two texts that are not split are not split together. -/
theorem StaysWhole.append {a b : List Char} (ha : StaysWhole sep a) (hb : StaysWhole sep b) :
    StaysWhole sep (a ++ b) := by
  intro piece rest
  rw [List.append_assoc, ha, hb, List.reverse_append, List.append_assoc]

/-- A text that is read whole in front of every text stays whole. -/
theorem staysWhole_of_readsWhole {t : List Char} (h : ∀ rest, ReadsWhole sep rest t) :
    StaysWhole sep t :=
  fun piece rest => (h rest).splitWalk_eq piece

/-- Inert characters without the separator are not split. -/
theorem staysWhole_of_isInert {t : List Char} (h : ∀ c ∈ t, isInert c = true) (hsep : sep ∉ t) :
    StaysWhole sep t :=
  staysWhole_of_readsWhole fun _ => readsWhole_of_isInert h hsep

/-- A closed string stays whole, whatever stands in it. -/
theorem staysWhole_quoted {quote : Char} {body : List Char} (hquote : quote = '\'' ∨ quote = '"')
    (h : LiteralBody [quote, '\n'] body) : StaysWhole sep (quote :: (body ++ [quote])) :=
  staysWhole_of_readsWhole fun _ => readsWhole_quoted hquote h

end

/-- Texts that stay whole are the pieces of their listing. -/
theorem splitTopLevel_listing {t : List Char} {ts : List (List Char)} (ht : StaysWhole ',' t)
    (hts : ∀ u ∈ ts, StaysWhole ',' u) :
    splitTopLevel ',' (listing (t :: ts)) = t :: ts.map (' ' :: ·) := by
  have hrest : ∀ piece : List Char, splitWalk ',' piece 0 (ts.flatMap fun t => ',' :: ' ' :: t) =
      piece.reverse :: ts.map (' ' :: ·) := by
    induction ts with
    | nil => intro piece; rfl
    | cons u ts ih =>
      intro piece
      have hspace : StaysWhole ',' [' '] :=
        staysWhole_of_isInert (List.all_eq_true.1 (by decide)) (by decide)
      have hu : StaysWhole ',' (' ' :: u) := hspace.append (hts u List.mem_cons_self)
      have hopens : ∀ rest, opensToken ',' rest = false := opensToken_eq_false (by decide)
      rw [List.flatMap_cons, List.cons_append, splitWalk, hopens, if_neg Bool.false_ne_true,
        if_pos rfl, hu, ih fun v hv => hts v (List.mem_cons_of_mem u hv)]
      simp
  rw [splitTopLevel, listing, ht, hrest]
  simp

/-- The walk gets through a list of entries. -/
theorem crosses_listing {ts : List (List Char)} (h : ∀ t ∈ ts, Crosses t) :
    Crosses (listing ts) := by
  cases ts with
  | nil => exact .nil
  | cons t ts =>
    refine (h t List.mem_cons_self).append (crosses_flatten fun u hu => ?_)
    obtain ⟨v, hv, rfl⟩ := List.mem_map.1 hu
    exact .cons (by decide) (.cons (by decide) (h v (List.mem_cons_of_mem t hv)))

/-! ### Entries -/

/-- The prop of an entry. -/
def Entry.prop? : Entry → Option (String × PropValue)
  | .prop key value => some (key, value)
  | _ => none

/-- An entry that is no literal of its own. -/
def Entry.IsFlat : Entry → Prop
  | .nested _ => False
  | _ => True

/-- What a literal says with one more entry. -/
def ObjectProps.add? (acc : ObjectProps) : Entry → Option ObjectProps
  | .nothing => some acc
  | .spread => some { acc with spread := true }
  | .prop key value => some { acc with entries := acc.entries ++ [(key, value)] }
  | .nested inner => (readObject? inner).map acc.append

/-- A literal says what its pieces contribute, one after another. -/
theorem readObject?_eq_foldlM (body : List Char) :
    readObject? body =
      (splitTopLevel ',' body).foldlM (fun acc e => (contribution? e).bind acc.add?) {} := by
  rw [readObject?, List.foldlM_subtype, List.unattach_attach]
  intro acc e he
  dsimp only
  split <;> next h => rw [h]; rfl

/-- A literal whose pieces are flat entries says what these say. -/
theorem readObject?_of_contributions {body : List Char} {entries : List Entry}
    (h : (splitTopLevel ',' body).map contribution? = entries.map some)
    (hflat : ∀ e ∈ entries, e.IsFlat) :
    readObject? body = some ⟨entries.filterMap Entry.prop?, entries.contains .spread⟩ := by
  have hfold : ∀ (pieces : List (List Char)) (entries : List Entry) (acc : ObjectProps),
      pieces.map contribution? = entries.map some → (∀ e ∈ entries, e.IsFlat) →
      pieces.foldlM (fun acc e => (contribution? e).bind acc.add?) acc =
        some ⟨acc.entries ++ entries.filterMap Entry.prop?,
          acc.spread || entries.contains .spread⟩ := by
    intro pieces
    induction pieces with
    | nil =>
      intro entries acc hmap _
      obtain rfl : entries = [] := by simpa using hmap.symm
      simp
    | cons p pieces ih =>
      intro entries acc hmap hflat
      cases entries with
      | nil => simp at hmap
      | cons e entries =>
        obtain ⟨hp, hpieces⟩ : contribution? p = some e ∧
          pieces.map contribution? = entries.map some := by simpa using hmap
        have hrest := fun acc => ih entries acc hpieces fun e he =>
          hflat e (List.mem_cons_of_mem _ he)
        have he := hflat e List.mem_cons_self
        rw [List.foldlM_cons, hp]
        -- Only a literal inside the literal would have to be read in turn.
        cases e with
        | nothing => simp [ObjectProps.add?, hrest, List.filterMap_cons, Entry.prop?]
        | spread => simp [ObjectProps.add?, hrest, List.filterMap_cons, Entry.prop?]
        | prop key value => simp [ObjectProps.add?, hrest, Entry.prop?]
        | nested inner => exact he.elim
  rw [readObject?_eq_foldlM, hfold _ _ _ h hflat]
  simp

end ComponentAudit.Script
