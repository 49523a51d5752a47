import ComponentAudit.Script.Expression
import ComponentAudit.Script.Split

/-!
# Object literals

The props that an object literal declares, in source order, and whether it may hold others as
well: a spread or a computed key leaves that open. The literals under `attrs`, `props` and
`domProps` hold the real props and are read in place.
-/

namespace ComponentAudit.Script

/-- What one entry of an object literal contributes. -/
inductive Entry where
  /-- Nothing: the entry is empty or its key cannot be read. -/
  | nothing
  /-- A spread or a computed key, behind which any prop may stand. -/
  | spread
  /-- One prop. -/
  | prop (key : String) (value : PropValue)
  /-- The props of the literal with this body. -/
  | nested (body : List Char)
  deriving DecidableEq, Repr

/-- The keys whose literal holds the real props. -/
def nestedKeys : List (List Char) := ["attrs", "props", "domProps"].map String.toList

/-- The key of an entry and the text after it. A quoted key must be closed. -/
def entryKey? : List Char → Option (List Char × List Char)
  | [] => none
  | c :: s =>
    if c = '\'' || c = '"' then
      let n := quotedLength c s
      if n ≠ 0 && (s.take n).getLast? = some c then
        some (unescape (s.take (n - 1)), s.drop n)
      else none
    else if isIdentChar c then
      some ((c :: s).takeWhile isIdentChar, (c :: s).dropWhile isIdentChar)
    else none

/-- What a key with the given value text contributes. -/
def entryValue? (key value : List Char) : Option Entry :=
  match if nestedKeys.contains key then enclosed? '\x7b' value else none with
  | some body => some (.nested body)
  | none => (classify value).map (.prop (String.ofList key))

/-- What an entry contributes, with blanks around it removed. A key alone stands for a reference
of its name; a key followed by anything but a colon is a method. -/
def trimmedContribution? (e : List Char) : Option Entry :=
  -- A computed key may be any key.
  if Text.startsWith ['.', '.', '.'] e || Text.startsWith ['['] e then some .spread
  else match entryKey? e with
    | none => some .nothing
    | some (key, rest) =>
      match Text.trimStart rest with
      | [] => some (.prop (String.ofList key) (.reference (String.ofList key)))
      | ':' :: value => entryValue? key (Text.trim value)
      | _ => some (.prop (String.ofList key) .unresolved)

/-- What an entry contributes. -/
def contribution? (e : List Char) : Option Entry := trimmedContribution? (Text.trim e)

/-! ### The body of a nested literal is shorter than its entry -/

private theorem length_entryKey?_rest_le {e key rest : List Char}
    (h : entryKey? e = some (key, rest)) : rest.length ≤ e.length := by
  cases e with
  | nil => simp [entryKey?] at h
  | cons c s =>
    simp only [entryKey?] at h
    split at h
    · split at h
      · simp only [Option.some.injEq, Prod.mk.injEq] at h
        rw [← h.2]
        simp only [List.length_drop, List.length_cons]
        omega
      · simp at h
    · split at h
      · simp only [Option.some.injEq, Prod.mk.injEq] at h
        rw [← h.2]
        exact (List.dropWhile_sublist _).length_le
      · simp at h

private theorem length_nested_lt_of_entryValue? {key value body : List Char}
    (h : entryValue? key value = some (.nested body)) : body.length < value.length := by
  rw [entryValue?] at h
  split at h
  · next inner hi =>
    cases h
    split at hi
    · exact length_enclosed?_lt hi
    · simp at hi
  · obtain ⟨v, _, hv⟩ := Option.map_eq_some_iff.1 h
    cases hv

/-- An object literal in an entry is shorter than the entry. -/
theorem length_nested_lt_of_contribution? {e body : List Char}
    (h : contribution? e = some (.nested body)) : body.length < e.length := by
  rw [contribution?, trimmedContribution?] at h
  split at h
  · simp at h
  · split at h
    · simp at h
    · next key rest hk =>
      have hrest := length_entryKey?_rest_le hk
      have htrim := Text.length_trimStart_le rest
      split at h
      · simp at h
      · next value hv =>
        have hval := Text.length_trim_le value
        have hbody := length_nested_lt_of_entryValue? h
        have he := Text.length_trim_le e
        rw [hv] at htrim
        simp only [List.length_cons] at htrim
        omega
      · simp at h

/-! ### Whole literals -/

/-- What an object literal says about props: those it declares, in source order, and whether it
leaves open that there are others. -/
structure ObjectProps where
  entries : List (String × PropValue) := []
  spread : Bool := false
  deriving DecidableEq

/-- Two parts of a literal, one after the other. -/
def ObjectProps.append (a b : ObjectProps) : ObjectProps :=
  ⟨a.entries ++ b.entries, a.spread || b.spread⟩

/-- The props declared by the body of an object literal, without its braces. There is no answer
when the value of an entry has none. -/
def readObject? (body : List Char) : Option ObjectProps :=
  (splitTopLevel ',' body).attach.foldlM (fun acc ⟨e, _he⟩ =>
    match _h : contribution? e with
    | none => none
    | some .nothing => some acc
    | some .spread => some { acc with spread := true }
    | some (.prop key value) => some { acc with entries := acc.entries ++ [(key, value)] }
    | some (.nested inner) => (readObject? inner).map acc.append) {}
termination_by body.length
decreasing_by
  exact Nat.lt_of_lt_of_le (length_nested_lt_of_contribution? _h)
    (length_le_of_mem_splitTopLevel _he)

end ComponentAudit.Script
