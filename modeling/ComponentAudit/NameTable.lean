/-!
# Tables keyed by name

A `NameTable β` maps finitely many names to values and lists them in ascending order of the names,
character by character by code point. Every table that is printed or searched in name order is
one: the props of a usage, the components of a catalog, the counts of a report.

The order is part of the type, so two tables with the same entries are equal, and a lookup by a
coarser key than the name (`find?`) has one well-defined first match.
-/

namespace ComponentAudit

/-- Names in strictly ascending order. -/
def Ascending {β : Type} (entries : List (String × β)) : Prop :=
  entries.Pairwise fun a b => a.1 < b.1

/-- A finite map from names to values, listed in ascending order of the names. -/
@[ext]
structure NameTable (β : Type) where
  entries : List (String × β)
  ascending : Ascending entries
  deriving DecidableEq

namespace NameTable

variable {β : Type}

/-- The table without entries. -/
def empty : NameTable β := ⟨[], List.Pairwise.nil⟩

instance : EmptyCollection (NameTable β) := ⟨empty⟩

instance : Inhabited (NameTable β) := ⟨empty⟩

/-! ### Insertion -/

/-- Puts an entry at its place in an ascending list, instead of the one with its name if there is
one. -/
def insertEntry (k : String) (v : β) : List (String × β) → List (String × β)
  | [] => [(k, v)]
  | (a, w) :: rest =>
    if k < a then (k, v) :: (a, w) :: rest
    else if k = a then (k, v) :: rest
    else (a, w) :: insertEntry k v rest

/-- An entry is the new one or was there before. -/
theorem mem_insertEntry {k : String} {v : β} {e : String × β} :
    ∀ {l : List (String × β)}, e ∈ insertEntry k v l → e = (k, v) ∨ e ∈ l
  | [], h => by simpa [insertEntry] using h
  | (a, w) :: rest, h => by
    rw [insertEntry] at h
    split at h
    · simpa using h
    · split at h
      · rcases List.mem_cons.1 h with h | h
        · exact .inl h
        · exact .inr (List.mem_cons_of_mem _ h)
      · rcases List.mem_cons.1 h with h | h
        · exact .inr (h ▸ List.mem_cons_self)
        · exact (mem_insertEntry h).imp_right (List.mem_cons_of_mem _)

private theorem lt_of_not_lt_of_ne {a b : String} (h : ¬ a < b) (hne : a ≠ b) : b < a := by
  rcases Std.le_total (a := a) (b := b) with h' | h'
  · exact absurd (Std.lt_of_le_of_ne h' hne) h
  · exact Std.lt_of_le_of_ne h' (Ne.symm hne)

private theorem ascending_insertEntry (k : String) (v : β) :
    ∀ {l : List (String × β)}, Ascending l → Ascending (insertEntry k v l)
  | [], _ => List.pairwise_singleton _ _
  | (a, w) :: rest, h => by
    rw [insertEntry]
    obtain ⟨hhead, htail⟩ := List.pairwise_cons.1 h
    split
    · next hk =>
      refine List.pairwise_cons.2 ⟨fun e he => ?_, h⟩
      rcases List.mem_cons.1 he with rfl | he
      · exact hk
      · exact Std.lt_trans hk (hhead e he)
    · split
      · next hk => exact hk ▸ List.pairwise_cons.2 ⟨hhead, htail⟩
      · next hlt hne =>
        refine List.pairwise_cons.2 ⟨fun e he => ?_, ascending_insertEntry k v htail⟩
        rcases mem_insertEntry he with rfl | he
        · exact lt_of_not_lt_of_ne hlt hne
        · exact hhead e he

/-- The table with `v` under the name `k`. -/
def insert (t : NameTable β) (k : String) (v : β) : NameTable β :=
  ⟨insertEntry k v t.entries, ascending_insertEntry k v t.ascending⟩

/-- Inserts the entries from left to right, so that the last one of a name stays. -/
def insertAll (t : NameTable β) (entries : List (String × β)) : NameTable β :=
  entries.foldl (fun t e => t.insert e.1 e.2) t

/-- The table of the given entries; of several with one name the last stays. -/
def ofList (entries : List (String × β)) : NameTable β := empty.insertAll entries

/-! ### Views -/

/-- The value under a name. -/
def get? (t : NameTable β) (k : String) : Option β := t.entries.lookup k

/-- Whether the name is in the table. -/
def contains (t : NameTable β) (k : String) : Bool := (t.get? k).isSome

/-- The names in ascending order. -/
def keys (t : NameTable β) : List String := t.entries.map Prod.fst

/-- The values in the order of their names. -/
def values (t : NameTable β) : List β := t.entries.map Prod.snd

/-- The number of entries. -/
def size (t : NameTable β) : Nat := t.entries.length

/-- The value of the first entry, in name order, whose name satisfies `p`. -/
def find? (t : NameTable β) (p : String → Bool) : Option β :=
  (t.entries.find? fun e => p e.1).map Prod.snd

/-- The value under `k` changed by `f`, which is given `none` when there is none. -/
def alter (t : NameTable β) (k : String) (f : Option β → β) : NameTable β :=
  t.insert k (f (t.get? k))

end NameTable

end ComponentAudit
