import ComponentAudit.Proofs.Json.Scalar

/-!
# Layouts of JSON texts

The two ways to write a value differ only in the blanks between its parts. A `Layout` is any way to
write values that puts blanks nowhere but before the items and fields of a value, before its closing
bracket and after a colon; `Layout.tight` is the text on one line and `Layout.indented` the one with
a line for each item. What is read back from a text is settled for all layouts at once.

A text on one line really is on one line: it has no control characters at all
(`noControl_compact`), because those of its strings are escaped.
-/

namespace ComponentAudit.Json

/-- Whether a value holds no others. -/
def isScalar : Json → Bool
  | .array _ => false
  | .object _ => false
  | _ => true

/-- Texts with commas between them, each after `inner`, and `outer` at the end. Nothing stands for
no texts. -/
def enclosed (outer inner : List Char) : List (List Char) → List Char
  | [] => []
  | t :: ts => inner ++ t ++ ts.flatMap (fun t => ',' :: (inner ++ t)) ++ outer

/-- A text in brackets is no longer than the brackets with it. -/
theorem length_le_of_mem_enclosed (outer inner : List Char) {ts : List (List Char)} {t : List Char}
    (h : t ∈ ts) : t.length ≤ (enclosed outer inner ts).length := by
  cases ts with
  | nil => cases h
  | cons t' ts =>
    rcases List.mem_cons.1 h with rfl | h
    · simp only [enclosed, List.length_append]
      omega
    · have hsub : (',' :: (inner ++ t)).length ≤
          (ts.flatMap fun t => ',' :: (inner ++ t)).length := by
        rw [List.flatMap_def]
        exact (List.sublist_flatten_of_mem
          (List.mem_map_of_mem (f := fun t => ',' :: (inner ++ t)) h)).length_le
      simp only [enclosed, List.length_append, List.length_cons] at hsub ⊢
      omega

/-- There are at least as many characters as commas. -/
theorem length_le_length_enclosed (outer inner : List Char) (ts : List (List Char)) :
    ts.length ≤ (enclosed outer inner ts).length + 1 := by
  cases ts with
  | nil => simp
  | cons t ts =>
    have hcommas : ts.length ≤ (ts.flatMap fun t => ',' :: (inner ++ t)).length := by
      induction ts with
      | nil => simp
      | cons t ts ih =>
        simp only [List.flatMap_cons, List.length_append, List.length_cons]
        omega
    simp only [enclosed, List.length_append, List.length_cons]
    omega

/-- The text of a field, given that of its value. -/
def fieldText (afterColon : List Char) (text : Json → List Char) (f : String × Json) : List Char :=
  (quote f.1).toList ++ ':' :: (afterColon ++ text f.2)

/-- A way to write values that has its own blanks. -/
structure Layout where
  /-- The text of a value at a level. -/
  text : Nat → Json → List Char
  lineBreak : Nat → List Char
  afterColon : List Char
  isBlank_lineBreak : ∀ level, ∀ c ∈ lineBreak level, isBlank c = true
  isBlank_afterColon : ∀ c ∈ afterColon, isBlank c = true
  text_scalar : ∀ level v, v.isScalar = true → text level v = (scalarText v).toList
  text_array : ∀ level items, text level (.array items) =
    '[' :: enclosed (lineBreak level) (lineBreak (level + 1)) (items.map (text (level + 1))) ++
      [']']
  text_object : ∀ level fields, text level (.object fields) =
    '\x7b' :: enclosed (lineBreak level) (lineBreak (level + 1))
      (fields.map (fieldText afterColon (text (level + 1)))) ++ ['\x7d']

/-! ### The two layouts -/

/-- Texts that are joined one after the other. -/
private theorem joined_eq {α : Type} (join : List α → List Char) (text : α → List Char)
    (inner : List Char) (one : ∀ a, join [a] = inner ++ text a)
    (more : ∀ a b as, join (a :: b :: as) = inner ++ text a ++ ',' :: join (b :: as))
    (a : α) (as : List α) :
    join (a :: as) =
      inner ++ text a ++ (as.map text).flatMap fun t => ',' :: (inner ++ t) := by
  induction as generalizing a with
  | nil => simp [one]
  | cons b as ih => simp [more, ih]

/-- Values on one line. -/
def Layout.tight : Layout where
  text _ v := (compact v).toList
  lineBreak _ := []
  afterColon := []
  isBlank_lineBreak := by simp
  isBlank_afterColon := by simp
  text_scalar _ v hv := by cases v <;> simp_all [isScalar, compact]
  text_array _ items := by
    cases items with
    | nil => rfl
    | cons v items =>
      have hjoin := joined_eq (fun vs => (compactItems vs).toList)
        (fun v => (compact v).toList) []
        (fun v => by simp [compactItems]) (fun v w vs => by simp [compactItems]) v items
      simp only [compact, String.toList_append, hjoin, enclosed, List.map_cons]
      simp
  text_object _ fields := by
    cases fields with
    | nil => rfl
    | cons f fields =>
      have hjoin := joined_eq (fun fs => (compactFields fs).toList)
        (fieldText [] fun v => (compact v).toList) []
        (fun f => by simp [compactFields, fieldText])
        (fun f g fs => by simp [compactFields, fieldText]) f fields
      simp only [compact, String.toList_append, hjoin, enclosed, List.map_cons]
      simp

/-- Values with a line for each item and field. -/
def Layout.indented : Layout where
  text level v := (prettyAt level v).toList
  lineBreak level := (breakLine level).toList
  afterColon := [' ']
  isBlank_lineBreak level c hc := by
    have hc' : c = '\n' ∨ c ∈ List.replicate (2 * level) ' ' := by simpa [breakLine] using hc
    rcases hc' with rfl | hc'
    · rfl
    · rw [List.eq_of_mem_replicate hc']
      rfl
  isBlank_afterColon c hc := by
    rw [List.mem_singleton.1 hc]
    rfl
  text_scalar level v hv := by cases v <;> simp_all [isScalar, prettyAt]
  text_array level items := by
    cases items with
    | nil => simp [prettyAt, enclosed]
    | cons v items =>
      have hjoin := joined_eq (fun vs => (prettyItems (level + 1) vs).toList)
        (fun v => (prettyAt (level + 1) v).toList) (breakLine (level + 1)).toList
        (fun v => by simp [prettyItems]) (fun v w vs => by simp [prettyItems]) v items
      simp only [prettyAt, String.toList_append, hjoin, enclosed, List.map_cons]
      simp
  text_object level fields := by
    cases fields with
    | nil => simp [prettyAt, enclosed]
    | cons f fields =>
      have hjoin := joined_eq (fun fs => (prettyFields (level + 1) fs).toList)
        (fieldText [' '] fun v => (prettyAt (level + 1) v).toList) (breakLine (level + 1)).toList
        (fun f => by simp [prettyFields, fieldText])
        (fun f g fs => by simp [prettyFields, fieldText]) f fields
      simp only [prettyAt, String.toList_append, hjoin, enclosed, List.map_cons]
      simp

/-! ### One line -/

mutual

/-- A value that is written on one line has no control characters. -/
theorem noControl_compact : ∀ v : Json, NoControl (compact v).toList
  | .array items => by
    simp only [compact, String.toList_append, noControl_append]
    exact ⟨⟨by decide, noControl_compactItems items⟩, by decide⟩
  | .object fields => by
    simp only [compact, String.toList_append, noControl_append]
    exact ⟨⟨by decide, noControl_compactFields fields⟩, by decide⟩
  | .null => noControl_scalarText .null
  | .bool b => noControl_scalarText (.bool b)
  | .int n => noControl_scalarText (.int n)
  | .float x => noControl_scalarText (.float x)
  | .string s => noControl_scalarText (.string s)

private theorem noControl_compactItems : ∀ items : List Json, NoControl (compactItems items).toList
  | [] => by decide
  | [v] => noControl_compact v
  | v :: w :: items => by
    simp only [compactItems, String.toList_append, noControl_append]
    exact ⟨⟨noControl_compact v, by decide⟩, noControl_compactItems (w :: items)⟩

private theorem noControl_compactFields :
    ∀ fields : List (String × Json), NoControl (compactFields fields).toList
  | [] => by decide
  | [(k, v)] => by
    simp only [compactFields, String.toList_append, noControl_append]
    exact ⟨⟨noControl_quote k, by decide⟩, noControl_compact v⟩
  | (k, v) :: f :: fields => by
    simp only [compactFields, String.toList_append, noControl_append]
    exact ⟨⟨⟨⟨noControl_quote k, by decide⟩, noControl_compact v⟩, by decide⟩,
      noControl_compactFields (f :: fields)⟩

end

end ComponentAudit.Json
