import ComponentAudit.NameTable
import Mathlib.Algebra.GroupWithZero.Nat

/-!
# Lookups in tables

A table is determined by its lookups: the entries are the pairs that a lookup gives
(`mem_entries_iff`), an insertion changes the lookup of one name (`get?_insert`), and a table is the
table of its own entries (`ofList_entries`).
-/

namespace ComponentAudit

variable {β : Type}

/-- A lookup takes the first entry if it has the name, and looks among the others if not. -/
theorem lookup_cons_eq_ite (a k : String) (v : β) (l : List (String × β)) :
    ((k, v) :: l).lookup a = if a = k then some v else l.lookup a := by
  rw [List.lookup_cons]
  by_cases h : a = k
  · rw [if_pos h, beq_iff_eq.2 h]
  · rw [if_neg h, beq_eq_false_iff_ne.2 h]

namespace NameTable

/-! ### Lookups -/

private theorem lookup_insertEntry (k : String) (v : β) (a : String) (l : List (String × β)) :
    (insertEntry k v l).lookup a = if a = k then some v else l.lookup a := by
  induction l with
  | nil => rw [insertEntry, lookup_cons_eq_ite]
  | cons e rest ih =>
    obtain ⟨b, w⟩ := e
    rw [insertEntry]
    split
    · rw [lookup_cons_eq_ite]
    · split
      · next hk =>
        rw [lookup_cons_eq_ite, lookup_cons_eq_ite, hk]
        split <;> rfl
      · next hk =>
        rw [lookup_cons_eq_ite, lookup_cons_eq_ite, ih]
        by_cases hb : a = b
        · rw [if_pos hb, if_pos hb, if_neg fun ha => hk (ha.symm.trans hb)]
        · rw [if_neg hb, if_neg hb]

/-- An insertion changes the lookup of its name and no other. -/
theorem get?_insert (t : NameTable β) (k : String) (v : β) (a : String) :
    (t.insert k v).get? a = if a = k then some v else t.get? a :=
  lookup_insertEntry k v a t.entries

/-- A change to one key changes what is under that key. -/
theorem get?_alter (t : NameTable β) (k : String) (f : Option β → β) (a : String) :
    (t.alter k f).get? a = if a = k then some (f (t.get? a)) else t.get? a := by
  rw [alter, get?_insert]
  split
  · next h => rw [h]
  · rfl

/-! ### Entries -/

/-- Every key is there once. -/
theorem nodup_keys (t : NameTable β) : t.keys.Nodup :=
  List.pairwise_map.2 (t.ascending.imp fun hlt => Std.ne_of_lt hlt)

private theorem lookup_eq_none_of_lt {k : String} {l : List (String × β)}
    (h : ∀ e ∈ l, k < e.1) : l.lookup k = none :=
  List.lookup_eq_none_iff.2 fun e he => bne_iff_ne.2 (Std.ne_of_lt (h e he))

private theorem mem_iff_lookup {l : List (String × β)} (h : Ascending l) {k : String} {v : β} :
    (k, v) ∈ l ↔ l.lookup k = some v := by
  induction l with
  | nil => simp
  | cons e rest ih =>
    obtain ⟨a, w⟩ := e
    obtain ⟨hhead, htail⟩ := List.pairwise_cons.1 h
    rw [lookup_cons_eq_ite, List.mem_cons, ih htail]
    by_cases hk : k = a
    · subst hk
      have hnone : rest.lookup k = none := lookup_eq_none_of_lt hhead
      simp [hnone, eq_comm]
    · simp [hk]

/-- The entries of a table are the pairs that a lookup gives. -/
theorem mem_entries_iff (t : NameTable β) {k : String} {v : β} :
    (k, v) ∈ t.entries ↔ t.get? k = some v :=
  mem_iff_lookup t.ascending

/-- The keys are the names under which something is found. -/
theorem mem_keys_iff (t : NameTable β) {k : String} : k ∈ t.keys ↔ ∃ v, t.get? k = some v := by
  simp only [keys, List.mem_map, Prod.exists, exists_and_right, exists_eq_right, mem_entries_iff]

/-! ### Sums -/

private theorem sum_insertEntry (k : String) (n : Nat) {l : List (String × Nat)}
    (h : Ascending l) : ((insertEntry k n l).map Prod.snd).sum + (l.lookup k).getD 0 =
      (l.map Prod.snd).sum + n := by
  induction l with
  | nil => simp [insertEntry]
  | cons e rest ih =>
    obtain ⟨a, m⟩ := e
    obtain ⟨hhead, htail⟩ := List.pairwise_cons.1 h
    have hrest := ih htail
    rw [insertEntry, lookup_cons_eq_ite]
    split
    · next hlt =>
      have hnone : rest.lookup k = none :=
        lookup_eq_none_of_lt fun e he => Std.lt_trans hlt (hhead e he)
      rw [if_neg (Std.ne_of_lt hlt), hnone]
      simp only [List.map_cons, List.sum_cons, Option.getD_none]
      omega
    · split
      · simp only [List.map_cons, List.sum_cons, Option.getD_some]
        omega
      · simp only [List.map_cons, List.sum_cons]
        omega

/-- Counting once more under a name adds one to the sum of the counts. -/
theorem sum_values_count (t : NameTable Nat) (k : String) :
    (t.alter k fun n => n.getD 0 + 1).values.sum = t.values.sum + 1 := by
  have h := sum_insertEntry k ((t.get? k).getD 0 + 1) t.ascending
  change ((t.alter k fun n => n.getD 0 + 1).entries.map Prod.snd).sum + (t.get? k).getD 0 = _ at h
  simp only [values] at h ⊢
  omega

/-! ### Tables of entries -/

private theorem insertEntry_concat {k : String} {v : β} {l : List (String × β)}
    (h : ∀ e ∈ l, e.1 < k) : insertEntry k v l = l ++ [(k, v)] := by
  induction l with
  | nil => rfl
  | cons e rest ih =>
    obtain ⟨he, hrest⟩ := List.forall_mem_cons.1 h
    rw [insertEntry, if_neg (Std.not_lt.2 (Std.le_of_lt he)), if_neg (Std.ne_of_lt he).symm,
      ih hrest, List.cons_append]

private theorem entries_insertAll (t : NameTable β) {l : List (String × β)}
    (h : Ascending (t.entries ++ l)) : (t.insertAll l).entries = t.entries ++ l := by
  induction l generalizing t with
  | nil => rw [List.append_nil]; rfl
  | cons e rest ih =>
    obtain ⟨-, -, hcross⟩ := List.pairwise_append.1 h
    have hinsert : (t.insert e.1 e.2).entries = t.entries ++ [e] :=
      insertEntry_concat fun a ha => hcross a ha e List.mem_cons_self
    have hrest := ih (t.insert e.1 e.2) (by rwa [hinsert, List.append_assoc])
    rwa [hinsert, List.append_assoc] at hrest

/-- A table is the table of its entries. -/
theorem ofList_entries (t : NameTable β) : ofList t.entries = t :=
  NameTable.ext (entries_insertAll empty t.ascending)

end NameTable

end ComponentAudit
