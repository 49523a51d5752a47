import ComponentAudit.Proofs.Json.Layout

/-!
# Reading what was written

A value that is written and read again is the same value, in either layout
(`parse?_compact`, `parse?_pretty`). The value has to be `Legible`: not nested deeper than the
reader follows, with integers of 64 bits and doubles that are read back, and without an object that
has two fields of one name. Conversely, whatever is read has these properties but for the doubles
(`legible_of_value`), so that a part of one text can be put into another.

Items and fields are read by the same loop with different brackets, `bracketed`, and everything
about the loop is said of that one.
-/

namespace ComponentAudit.Json

/-! ### Blanks -/

private theorem skipBlanks_append {blanks : List Char} (h : ∀ c ∈ blanks, isBlank c = true)
    (s : List Char) : skipBlanks (blanks ++ s) = skipBlanks s :=
  List.dropWhile_append_of_pos h

private theorem skipBlanks_cons {c : Char} (h : isBlank c = false) (s : List Char) :
    skipBlanks (c :: s) = c :: s := by
  simp [skipBlanks, h]

private theorem skipBlanks_skipBlanks (s : List Char) :
    skipBlanks (skipBlanks s) = skipBlanks s := by
  induction s with
  | nil => rfl
  | cons c s ih =>
    cases hc : isBlank c with
    | false => rw [skipBlanks_cons hc, skipBlanks_cons hc]
    | true => rwa [show skipBlanks (c :: s) = skipBlanks s by simp [skipBlanks, hc]]

/-- Blanks in front make no difference to a reader. -/
def IgnoresBlanks {α : Type} (read : Reader α) : Prop := ∀ s, read (skipBlanks s) = read s

/-- Blanks in front make no difference. -/
theorem IgnoresBlanks.append {α : Type} {read : Reader α} (h : IgnoresBlanks read)
    {blanks : List Char} (hblank : ∀ c ∈ blanks, isBlank c = true) (s : List Char) :
    read (blanks ++ s) = read s := by
  rw [← h, skipBlanks_append hblank, h]

/-- Blanks before a value make no difference. -/
theorem ignoresBlanks_value (levels : Levels) (fuel : Nat) : IgnoresBlanks (value levels fuel) := by
  intro s
  cases fuel with
  | zero => rfl
  | succ fuel => rw [value, value, skipBlanks_skipBlanks]

/-- Blanks before a field make no difference. -/
theorem ignoresBlanks_field (keep : Bool) (value : String → Reader Json) :
    IgnoresBlanks (field keep value) := by
  intro s
  rw [field, field, skipBlanks_skipBlanks]

/-! ### The loop of items and fields -/

section

variable {α : Type}

/-- Reads what stands between commas, up to a closing bracket. -/
def separated (close : Char) (one : Reader α) (done : List α) : (fuel : Nat) → Reader (List α)
  | 0, _ => none
  | fuel + 1, s =>
    (one s).bind fun (a, r) =>
      match skipBlanks r with
      | [] => none
      | c :: r =>
        if c = ',' then separated close one (a :: done) fuel r
        else if c = close then some ((a :: done).reverse, r)
        else none

/-- Reads what stands between commas, if there is anything before the closing bracket. -/
def bracketed (close : Char) (one : Reader α) (fuel : Nat) : Reader (List α) := fun s =>
  match skipBlanks s with
  | [] => separated close one [] fuel []
  | c :: r => if c = close then some ([], r) else separated close one [] fuel (c :: r)

/-- The items of an array are read by the common loop up to their bracket. -/
theorem itemList_eq_separated (item : Reader Json) (done : List Json) (fuel : Nat) :
    itemList item done fuel = separated ']' item done fuel := by
  induction fuel generalizing done with
  | zero => rfl
  | succ fuel ih =>
    funext s
    rw [itemList, separated]
    congr 1
    funext ⟨v, r⟩
    dsimp only
    cases skipBlanks r with
    | nil => rfl
    | cons c r =>
      by_cases hcomma : c = ','
      · simp [hcomma, ih]
      · by_cases hclose : c = ']' <;> simp [hcomma, hclose]

/-- So are the fields of an object. -/
theorem fieldList_eq_separated (one : Reader (String × Json)) (done : List (String × Json))
    (fuel : Nat) : fieldList one done fuel = separated '\x7d' one done fuel := by
  induction fuel generalizing done with
  | zero => rfl
  | succ fuel ih =>
    funext s
    rw [fieldList, separated]
    congr 1
    funext ⟨f, r⟩
    dsimp only
    cases skipBlanks r with
    | nil => rfl
    | cons c r =>
      by_cases hcomma : c = ','
      · simp [hcomma, ih]
      · by_cases hclose : c = '\x7d' <;> simp [hcomma, hclose]

/-- The items of an array are read by the common loop. -/
theorem items_eq_bracketed (item : Reader Json) (fuel : Nat) :
    items item fuel = bracketed ']' item fuel := by
  funext s
  rw [items, bracketed, itemList_eq_separated]
  cases skipBlanks s with
  | nil => rfl
  | cons c r => by_cases hclose : c = ']' <;> simp [hclose]

/-- So are the fields of an object. -/
theorem fields_eq_bracketed (one : Reader (String × Json)) (fuel : Nat) :
    fields one fuel = bracketed '\x7d' one fuel := by
  funext s
  rw [fields, bracketed, fieldList_eq_separated]
  cases skipBlanks s with
  | nil => rfl
  | cons c r => by_cases hclose : c = '\x7d' <;> simp [hclose]

/-- Everything in a list that is read has been read by `one`. -/
private theorem mem_separated {close : Char} {one : Reader α} {done as : List α} {fuel : Nat}
    {s r : List Char} (h : separated close one done fuel s = some (as, r)) {a : α} (ha : a ∈ as) :
    a ∈ done ∨ ∃ s r, one s = some (a, r) := by
  induction fuel generalizing done s with
  | zero => cases h
  | succ fuel ih =>
    rw [separated] at h
    obtain ⟨⟨b, t⟩, hone, h⟩ := Option.bind_eq_some_iff.1 h
    have hdone : a ∈ b :: done → a ∈ done ∨ ∃ s r, one s = some (a, r) := by
      intro hmem
      rcases List.mem_cons.1 hmem with rfl | hmem
      · exact .inr ⟨s, t, hone⟩
      · exact .inl hmem
    dsimp only at h
    split at h
    · cases h
    · split at h
      · exact (ih h).elim hdone .inr
      · split at h
        · obtain ⟨rfl, rfl⟩ := by simpa using h
          exact hdone (by simpa [or_comm] using ha)
        · cases h

/-- What the loop gives has been read by its reader. -/
theorem mem_bracketed {close : Char} {one : Reader α} {as : List α} {fuel : Nat}
    {s r : List Char} (h : bracketed close one fuel s = some (as, r)) {a : α} (ha : a ∈ as) :
    ∃ s r, one s = some (a, r) := by
  rw [bracketed] at h
  split at h
  · exact (mem_separated h ha).resolve_left List.not_mem_nil
  · split at h
    · obtain ⟨rfl, -⟩ := by simpa using h
      cases ha
    · exact (mem_separated h ha).resolve_left List.not_mem_nil

private theorem delimited_append {blanks s : List Char} (hblank : ∀ c ∈ blanks, isBlank c = true)
    (hs : Delimited s) : Delimited (blanks ++ s) := by
  cases blanks with
  | nil => exact hs
  | cons c blanks =>
    rintro d ⟨⟩
    exact .inl (hblank c List.mem_cons_self)

private theorem ignoresBlanks_separated (close : Char) {one : Reader α} (hone : IgnoresBlanks one)
    (done : List α) (fuel : Nat) : IgnoresBlanks (separated close one done fuel) := by
  intro s
  cases fuel with
  | zero => rfl
  | succ fuel => rw [separated, separated, hone s]

/-- A list that begins with what `one` reads does not end at once. -/
private theorem bracketed_of_separated {close : Char} {one : Reader α} (hone : IgnoresBlanks one)
    (hempty : ∀ r, one (close :: r) = none) {fuel : Nat} {s r : List Char} {as : List α}
    (h : separated close one [] fuel s = some (as, r)) :
    bracketed close one fuel s = some (as, r) := by
  have hskip := (ignoresBlanks_separated close hone [] fuel s).trans h
  rw [bracketed]
  split
  · next hs => rwa [hs] at hskip
  · next c t hs =>
    rw [hs] at hskip
    split
    · next hc =>
      cases fuel with
      | zero => cases h
      | succ fuel => simp [separated, hc, hempty] at hskip
    · exact hskip

section

variable {close : Char} {one : Reader α} {outer inner : List Char} {text : α → List Char}
  (hclose : close = ']' ∨ close = '\x7d') (hone : IgnoresBlanks one)
  (houter : ∀ c ∈ outer, isBlank c = true) (hinner : ∀ c ∈ inner, isBlank c = true)
include hclose hone houter hinner

/-- The induction is on the texts that are left, with what has been read before them arbitrary. -/
private theorem separated_texts {as : List α} {a : α} (done : List α) {fuel : Nat}
    (hread : ∀ b ∈ a :: as, ∀ rest, Delimited rest → one (text b ++ rest) = some (b, rest))
    (hfuel : as.length < fuel) (rest : List Char) :
    separated close one done fuel
      (inner ++ text a ++ (as.map text).flatMap (fun t => ',' :: (inner ++ t)) ++ outer ++
        close :: rest) = some (done.reverse ++ a :: as, rest) := by
  obtain ⟨fuel, rfl⟩ := Nat.exists_eq_add_one_of_ne_zero (Nat.ne_zero_of_lt hfuel)
  have hblank : isBlank close = false := by rcases hclose with rfl | rfl <;> rfl
  have hcomma : close ≠ ',' := by rcases hclose with rfl | rfl <;> decide
  induction as generalizing a done fuel with
  | nil =>
    have hend : Delimited (outer ++ close :: rest) :=
      delimited_append houter (by rintro c ⟨⟩; exact .inr (.inr hclose))
    have ha := hread a List.mem_cons_self _ hend
    simp [separated, hone.append hinner, ha, skipBlanks_append houter, skipBlanks_cons hblank,
      hcomma]
  | cons b as ih =>
    let tail := inner ++ text b ++ (as.map text).flatMap (fun t => ',' :: (inner ++ t)) ++ outer ++
      close :: rest
    have htext : inner ++ text a ++ ((b :: as).map text).flatMap (fun t => ',' :: (inner ++ t)) ++
        outer ++ close :: rest = inner ++ (text a ++ ',' :: tail) := by simp [tail]
    have ha := hread a List.mem_cons_self (',' :: tail) (by rintro c ⟨⟩; exact .inr (.inl rfl))
    -- The comma is read here, and the blanks before the next text by `one`.
    obtain ⟨fuel, rfl⟩ := Nat.exists_eq_add_one_of_ne_zero
      (Nat.ne_zero_of_lt (Nat.lt_of_succ_lt_succ hfuel))
    have hrest := ih (a :: done) (fun c hc => hread c (List.mem_cons_of_mem a hc)) fuel
      (Nat.lt_of_succ_lt_succ hfuel)
    rw [htext, separated, hone.append hinner, ha, Option.bind_some]
    dsimp only
    rw [skipBlanks_cons rfl]
    simpa [tail] using hrest

/-- A list is read up to its closing bracket, given that `one` reads each of its texts. -/
theorem bracketed_enclosed {as : List α} {fuel : Nat} (hempty : ∀ r, one (close :: r) = none)
    (hread : ∀ a ∈ as, ∀ rest, Delimited rest → one (text a ++ rest) = some (a, rest))
    (hfuel : as.length ≤ fuel) (rest : List Char) :
    bracketed close one fuel (enclosed outer inner (as.map text) ++ close :: rest) =
      some (as, rest) := by
  cases as with
  | nil =>
    have hblank : isBlank close = false := by rcases hclose with rfl | rfl <;> rfl
    simp [bracketed, enclosed, skipBlanks_cons hblank]
  | cons a as =>
    exact bracketed_of_separated hone hempty
      (separated_texts hclose hone houter hinner [] hread hfuel rest)

end

end

/-! ### One value at a time -/

section

variable (n fuel : Nat)

/-- A quoted string is read back. -/
theorem value_string (s : String) (rest : List Char) :
    value (some n) (fuel + 1) ((quote s).toList ++ rest) = some (.string s, rest) := by
  have hquoted := quoted_quote s rest
  rw [toList_quote, List.cons_append] at hquoted ⊢
  rw [value, skipBlanks_cons rfl]
  simpa [quoted] using hquoted

private theorem value_of_number {v : Json} {s r : List Char} (h : number true s = some (v, r)) :
    value (some n) (fuel + 1) s = some (v, r) := by
  cases s with
  | nil => cases h
  | cons c s =>
    have hhead := number_head h
    have hblank : isBlank c = false := by
      cases hc : isBlank c with
      | false => rfl
      | true =>
        simp only [isBlank, Bool.or_eq_true, decide_eq_true_eq, or_assoc] at hc
        rcases hc with rfl | rfl | rfl | rfl <;> exact absurd hhead (by decide)
    -- No other kind of value begins with a sign or a digit.
    rw [value, skipBlanks_cons hblank]
    dsimp only
    iterate 6
      split
      · next hc => exact absurd (hc ▸ hhead) (by decide)
    exact h

/-- No value begins with a closing bracket. -/
theorem value_closing (s : List Char) : value (some n) fuel (']' :: s) = none := by
  cases fuel <;> rfl

/-- An array is read by its bracket and the loop over its items. -/
theorem value_array (s : List Char) :
    value (some (n + 1)) (fuel + 1) ('[' :: s) =
      (bracketed ']' (value (some n) fuel) fuel s).map fun (vs, r) => (.array vs, r) := by
  rw [← items_eq_bracketed, value, skipBlanks_cons rfl]
  rfl

/-- An object is read by its brace and the loop over its fields. -/
theorem value_object (s : List Char) :
    value (some (n + 1)) (fuel + 1) ('\x7b' :: s) =
      (bracketed '\x7d' (field true fun _ => value (some n) fuel) fuel s).map
        fun (fs, r) => (ofWritten fs, r) := by
  rw [← fields_eq_bracketed, value, skipBlanks_cons rfl]
  rfl

end

/-- Fields of different names make the object that has them in their order. -/
theorem ofWritten_of_nodup {fs : List (String × Json)} (h : (fs.map Prod.fst).Nodup) :
    ofWritten fs = .object fs := by
  have hfold : ∀ (fs done : List (String × Json)), ((done ++ fs).map Prod.fst).Nodup →
      fs.foldl setField done = done ++ fs := by
    intro fs
    induction fs with
    | nil => simp
    | cons f fs ih =>
      intro done hdone
      have hnew : done.any (fun g => g.1 = f.1) = false := by
        rw [List.map_append, List.nodup_append] at hdone
        rw [List.any_eq_false]
        intro g hg
        have hne := hdone.2.2 g.1 (List.mem_map_of_mem hg) f.1 (by simp)
        simpa using hne
      rw [List.foldl_cons, setField, hnew, if_neg Bool.false_ne_true, ih (done ++ [f])]
      · simp
      · simpa using hdone
  rw [ofWritten, hfold fs [] h, List.nil_append]

/-! ### Values that can be read back -/

/-- A value is legible at `n` levels when a reader that keeps so many can give it: its arrays and
objects are nested no deeper, its integers have 64 bits, and the fields of an object have different
names. What its doubles must be is left open. -/
inductive Legible (double : Float → Prop) : Nat → Json → Prop where
  | null {n : Nat} : Legible double n .null
  | bool {n : Nat} (b : Bool) : Legible double n (.bool b)
  | int {n : Nat} {i : Int} (h : IsWord i) : Legible double n (.int i)
  | float {n : Nat} {x : Float} (h : double x) : Legible double n (.float x)
  | string {n : Nat} (s : String) : Legible double n (.string s)
  | array {n : Nat} {items : List Json} (h : ∀ v ∈ items, Legible double n v) :
    Legible double (n + 1) (.array items)
  | object {n : Nat} {fields : List (String × Json)} (hkeys : (fields.map Prod.fst).Nodup)
    (h : ∀ f ∈ fields, Legible double n f.2) : Legible double (n + 1) (.object fields)

section

variable {double : Float → Prop} {n : Nat}

@[simp] theorem legible_null : Legible double n .null := .null

@[simp] theorem legible_bool (b : Bool) : Legible double n (.bool b) := .bool b

@[simp] theorem legible_string (s : String) : Legible double n (.string s) := .string s

/-- An integer can be read back if it fits a word. -/
@[simp] theorem legible_int_iff {i : Int} : Legible double n (.int i) ↔ IsWord i :=
  ⟨fun h => by cases h; assumption, .int⟩

/-- An array can be read back, one level deeper, if its items can. -/
@[simp] theorem legible_array_iff {items : List Json} :
    Legible double (n + 1) (.array items) ↔ ∀ v ∈ items, Legible double n v :=
  ⟨fun h => by cases h; assumption, .array⟩

/-- So can an object without repeated names. -/
@[simp] theorem legible_object_iff {fields : List (String × Json)} :
    Legible double (n + 1) (.object fields) ↔
      (fields.map Prod.fst).Nodup ∧ ∀ f ∈ fields, Legible double n f.2 :=
  ⟨fun h => by cases h with | object hkeys h => exact ⟨hkeys, h⟩, fun h => .object h.1 h.2⟩

end

/-- A field is read from its text if its value is. -/
private theorem field_fieldText {read : Reader Json} (hread : IgnoresBlanks read)
    {afterColon rest : List Char} (hcolon : ∀ c ∈ afterColon, isBlank c = true)
    {text : Json → List Char} {f : String × Json}
    (hv : read (text f.2 ++ rest) = some (f.2, rest)) :
    field true (fun _ => read) (fieldText afterColon text f ++ rest) = some (f, rest) := by
  have htext : fieldText afterColon text f ++ rest =
      (quote f.1).toList ++ ':' :: (afterColon ++ (text f.2 ++ rest)) := by simp [fieldText]
  have hquote : skipBlanks (fieldText afterColon text f ++ rest) =
      fieldText afterColon text f ++ rest := by
    rw [fieldText, toList_quote]
    exact skipBlanks_cons rfl _
  rw [field, hquote, htext, quoted_quote, Option.bind_some]
  dsimp only
  rw [skipBlanks_cons rfl]
  simp [hread.append hcolon, hv]

/-- Fuel for a whole text is enough for each part of it and for their number. -/
private theorem fuel_of_enclosed {α : Type} {text : α → List Char} {as : List α} {fuel : Nat}
    {first last : Char} {outer inner : List Char}
    (h : (first :: enclosed outer inner (as.map text) ++ [last]).length < fuel + 1) :
    as.length ≤ fuel ∧ ∀ a ∈ as, (text a).length < fuel := by
  have hcount := length_le_length_enclosed outer inner (as.map text)
  simp only [List.length_append, List.length_cons, List.length_nil, List.length_map] at h hcount
  refine ⟨by omega, fun a ha => ?_⟩
  have hle := length_le_of_mem_enclosed outer inner (List.mem_map_of_mem (f := text) ha)
  omega

/-- **A legible value is read from its text**, in every layout and whatever follows it. -/
theorem value_text (layout : Layout) {n : Nat} {v : Json} (h : Legible ReadsBack n v)
    {level fuel : Nat} (hfuel : (layout.text level v).length < fuel + 1) {rest : List Char}
    (hrest : Delimited rest) :
    value (some n) (fuel + 1) (layout.text level v ++ rest) = some (v, rest) := by
  induction h generalizing level fuel rest with
  | null =>
    rw [layout.text_scalar _ _ rfl, value]
    rfl
  | bool b =>
    rw [layout.text_scalar _ _ rfl, value]
    cases b <;> rfl
  | int hword =>
    rw [layout.text_scalar _ _ rfl]
    exact value_of_number _ _ (stopsBefore_number hrest true (number_int hword))
  | float hback =>
    rw [layout.text_scalar _ _ rfl]
    exact value_of_number _ _ (stopsBefore_number hrest true hback)
  | string s =>
    rw [layout.text_scalar _ _ rfl]
    exact value_string _ _ s rest
  | @array n items hitems ih =>
    -- The text is longer than that of each item, and has a comma for each item but one, so that
    -- one unit of fuel less is enough for the items and for the loop over them.
    rw [layout.text_array] at hfuel ⊢
    obtain ⟨hcount, hlength⟩ := fuel_of_enclosed hfuel
    have hitem : ∀ v ∈ items, ∀ rest, Delimited rest →
        value (some n) fuel (layout.text (level + 1) v ++ rest) = some (v, rest) := by
      intro v hv rest hrest
      obtain ⟨fuel, rfl⟩ := Nat.exists_eq_add_one_of_ne_zero (Nat.ne_zero_of_lt (hlength v hv))
      exact ih v hv (hlength v hv) hrest
    have hread := bracketed_enclosed (.inl rfl) (ignoresBlanks_value _ _)
      (layout.isBlank_lineBreak level) (layout.isBlank_lineBreak (level + 1)) (value_closing n fuel)
      hitem hcount rest
    simp [value_array, hread]
  | @object n fields hkeys hfields ih =>
    rw [layout.text_object] at hfuel ⊢
    obtain ⟨hcount, hlength⟩ := fuel_of_enclosed hfuel
    have hfield : ∀ f ∈ fields, ∀ rest, Delimited rest →
        field true (fun _ => value (some n) fuel)
          (fieldText layout.afterColon (layout.text (level + 1)) f ++ rest) = some (f, rest) := by
      intro f hf rest hrest
      have hlt : (layout.text (level + 1) f.2).length < fuel := by
        have hle := hlength f hf
        simp only [fieldText, List.length_append, List.length_cons] at hle
        omega
      obtain ⟨fuel, rfl⟩ := Nat.exists_eq_add_one_of_ne_zero (Nat.ne_zero_of_lt hlt)
      exact field_fieldText (ignoresBlanks_value _ _) layout.isBlank_afterColon (ih f hf hlt hrest)
    have hread := bracketed_enclosed (.inr rfl) (ignoresBlanks_field _ _)
      (layout.isBlank_lineBreak level) (layout.isBlank_lineBreak (level + 1)) (fun _ => rfl)
      hfield hcount rest
    simp [value_object, hread, ofWritten_of_nodup hkeys]

private theorem parse?_text (layout : Layout) {v : Json} (h : Legible ReadsBack maxLevels v)
    {text : String} (htext : text.toList = layout.text 0 v) : parse? text = some v := by
  have hread : value (some maxLevels) (text.toList.length + 1) (layout.text 0 v ++ []) =
      some (v, []) := value_text layout h (htext ▸ Nat.lt_succ_self _) delimited_nil
  rw [List.append_nil, ← htext] at hread
  rw [parse?, hread]
  rfl

/-- A value that is written on one line is read back. -/
theorem parse?_compact {v : Json} (h : Legible ReadsBack maxLevels v) :
    parse? v.compact = some v :=
  parse?_text Layout.tight h rfl

/-- A value that is written with indentation is read back. -/
theorem parse?_pretty {v : Json} (h : Legible ReadsBack maxLevels v) : parse? v.pretty = some v :=
  parse?_text Layout.indented h rfl

/-! ### What is read can be read back -/

/-- The value holds the double. -/
inductive HasDouble (x : Float) : Json → Prop where
  | here : HasDouble x (.float x)
  | item {items : List Json} {v : Json} (hv : v ∈ items) (h : HasDouble x v) :
    HasDouble x (.array items)
  | field {fields : List (String × Json)} {f : String × Json} (hf : f ∈ fields)
    (h : HasDouble x f.2) : HasDouble x (.object fields)

/-- What can be read back depends on floating-point numbers only through those that occur. -/
theorem Legible.of_doubles {double double' : Float → Prop} {n : Nat} {v : Json}
    (h : Legible double n v) (hdouble : ∀ x, HasDouble x v → double' x) :
    Legible double' n v := by
  induction h with
  | null => exact .null
  | bool b => exact .bool b
  | int hword => exact .int hword
  | float => exact .float (hdouble _ .here)
  | string s => exact .string s
  | array _ ih => exact .array fun v hv => ih v hv fun x hx => hdouble x (.item hv hx)
  | object hkeys _ ih =>
    exact .object hkeys fun f hf => ih f hf fun x hx => hdouble x (.field hf hx)

/-- Putting a field keeps the names different and adds no value but its own. -/
private theorem setField_spec {fs : List (String × Json)} (h : (fs.map Prod.fst).Nodup)
    (f : String × Json) :
    ((setField fs f).map Prod.fst).Nodup ∧ ∀ g ∈ setField fs f, g ∈ fs ∨ g = f := by
  rw [setField]
  split
  · have hkeys : (fs.map fun g => if g.1 = f.1 then f else g).map Prod.fst = fs.map Prod.fst := by
      rw [List.map_map]
      refine List.map_congr_left fun g _ => ?_
      by_cases hg : g.1 = f.1 <;> simp [hg]
    refine ⟨hkeys ▸ h, fun g hg => ?_⟩
    obtain ⟨g', hg', rfl⟩ := List.mem_map.1 hg
    split
    · exact .inr rfl
    · exact .inl hg'
  · next hnew =>
    have hfresh : f.1 ∉ fs.map Prod.fst := by
      intro hmem
      obtain ⟨g, hg, hname⟩ := List.mem_map.1 hmem
      exact hnew (List.any_eq_true.2 ⟨g, hg, by simpa using hname⟩)
    refine ⟨?_, fun g hg => by simpa using hg⟩
    rw [List.map_append, List.map_singleton, List.nodup_append]
    refine ⟨h, by simp, fun k hk k' hk' => ?_⟩
    rintro rfl
    exact hfresh (List.mem_singleton.1 hk' ▸ hk)

/-- The object of fields as written has different names and no other values than those. -/
private theorem ofWritten_spec (fs : List (String × Json)) :
    ∃ gs, ofWritten fs = .object gs ∧ (gs.map Prod.fst).Nodup ∧ ∀ g ∈ gs, g ∈ fs := by
  have hfold : ∀ (fs done : List (String × Json)), (done.map Prod.fst).Nodup →
      ((fs.foldl setField done).map Prod.fst).Nodup ∧
        ∀ g ∈ fs.foldl setField done, g ∈ done ∨ g ∈ fs := by
    intro fs
    induction fs with
    | nil => exact fun done hdone => ⟨hdone, fun g hg => .inl hg⟩
    | cons f fs ih =>
      intro done hdone
      obtain ⟨hkeys, hmem⟩ := setField_spec hdone f
      obtain ⟨hkeys', hmem'⟩ := ih (setField done f) hkeys
      refine ⟨hkeys', fun g hg => ?_⟩
      rcases hmem' g hg with hg | hg
      · exact (hmem g hg).imp_right fun hgf => List.mem_cons.2 (.inl hgf)
      · exact .inr (List.mem_cons_of_mem f hg)
  obtain ⟨hkeys, hmem⟩ := hfold fs [] List.nodup_nil
  exact ⟨_, rfl, hkeys, fun g hg => (hmem g hg).resolve_left List.not_mem_nil⟩

private theorem legible_of_number {n : Nat} {s r : List Char} {v : Json}
    (h : number true s = some (v, r)) : Legible (fun _ => True) n v := by
  obtain ⟨⟨t, r'⟩, -, h⟩ := Option.bind_eq_some_iff.1 h
  obtain ⟨w, hw, hwv⟩ := Option.map_eq_some_iff.1 h
  obtain ⟨rfl, rfl⟩ := Prod.mk.inj hwv
  have hdouble : t.double?.map .float = some w → Legible (fun _ => True) n w := by
    intro hw
    obtain ⟨x, -, rfl⟩ := Option.map_eq_some_iff.1 hw
    exact .float trivial
  rw [NumberText.value?] at hw
  split at hw <;> split at hw
  · next hsize =>
    obtain rfl := Option.some.inj hw
    exact .int ⟨by omega, by omega⟩
  · exact hdouble hw
  · next hsize =>
    obtain rfl := Option.some.inj hw
    exact .int ⟨by omega, by omega⟩
  · exact hdouble hw

/-- The value of a field that is read has been read by the reader of values. -/
theorem value_of_field {keep : Bool} {read : String → Reader Json} {f : String × Json}
    {s r : List Char} (h : field keep read s = some (f, r)) :
    ∃ s', read f.1 s' = some (f.2, r) := by
  obtain ⟨⟨k, t⟩, -, h⟩ := Option.bind_eq_some_iff.1 h
  dsimp only at h
  split at h
  · next t' _ =>
    obtain ⟨⟨v, r'⟩, hread, hf⟩ := Option.map_eq_some_iff.1 h
    obtain ⟨rfl, rfl⟩ := Prod.mk.inj hf
    exact ⟨t', hread⟩
  · cases h

private theorem eq_of_word {text : String} {v w : Json} {s r : List Char}
    (h : word text v s = some (w, r)) : w = v := by
  obtain ⟨r', -, hw⟩ := Option.map_eq_some_iff.1 h
  exact (Prod.mk.inj hw).1.symm

/-- **A value that is read is legible** at the levels that the reader keeps, whatever its doubles
are. -/
theorem legible_of_value {n fuel : Nat} {s r : List Char} {v : Json}
    (h : value (some n) fuel s = some (v, r)) : Legible (fun _ => True) n v := by
  induction fuel generalizing n s r v with
  | zero => cases h
  | succ fuel ih =>
    -- One case for each first character that the reader tells apart.
    rw [value] at h
    split at h
    · cases h
    split at h
    · obtain ⟨⟨t, r'⟩, -, hv⟩ := Option.map_eq_some_iff.1 h
      obtain ⟨rfl, -⟩ := Prod.mk.inj hv
      exact .string t
    split at h
    · obtain ⟨inner, henter, h⟩ := Option.bind_eq_some_iff.1 h
      obtain ⟨⟨vs, r'⟩, hread, hv⟩ := Option.map_eq_some_iff.1 h
      obtain ⟨rfl, -⟩ := Prod.mk.inj hv
      cases n with
      | zero => cases henter
      | succ n =>
        obtain rfl := Option.some.inj henter
        refine .array fun w hw => ?_
        obtain ⟨s', r'', hone⟩ := mem_bracketed (items_eq_bracketed _ _ ▸ hread) hw
        exact ih hone
    split at h
    · obtain ⟨inner, henter, h⟩ := Option.bind_eq_some_iff.1 h
      obtain ⟨⟨fs, r'⟩, hread, hv⟩ := Option.map_eq_some_iff.1 h
      obtain ⟨rfl, -⟩ := Prod.mk.inj hv
      cases n with
      | zero => cases henter
      | succ n =>
        obtain rfl := Option.some.inj henter
        obtain ⟨gs, hgs, hkeys, hmem⟩ := ofWritten_spec fs
        rw [hgs]
        refine .object hkeys fun g hg => ?_
        obtain ⟨s', r'', hone⟩ := mem_bracketed (fields_eq_bracketed _ _ ▸ hread) (hmem g hg)
        obtain ⟨s₃, hvalue⟩ := value_of_field hone
        exact ih hvalue
    split at h
    · exact eq_of_word h ▸ .bool true
    split at h
    · exact eq_of_word h ▸ .bool false
    split at h
    · exact eq_of_word h ▸ .null
    · exact legible_of_number h

end ComponentAudit.Json
