import ComponentAudit.Proofs.Json.Reading
import ComponentAudit.Proofs.NameTable
import ComponentAudit.Record.Usage

/-!
# Records of usages are read back

Reading the record of a usage gives that usage again. Every kind of field has a way to write it and
a way to read it that undo each other (`Json.Undoes`), and lists, tables and records are built
from those. No field of a record is written twice (`Json.NamedFields`), so that it is read at all. A
field that is left out is read as what it is left out for: the reader has the same default, and no
value that is written is null, which would be read as none.

The main statement is `Usage.record_reads_back`. It goes down to the texts, in either layout, given
that the numbers of a usage have 64 bits.
-/

namespace ComponentAudit

namespace Json

/-! ### Fields -/

/-- The value of a field, if it is present and has the name. -/
def valueAt (key : String) (o : Option (String × Json)) : Option Json :=
  o.bind fun f => if key = f.1 then some f.2 else none

@[simp] theorem valueAt_none (key : String) : valueAt key none = none := rfl

@[simp] theorem valueAt_some (key name : String) (v : Json) :
    valueAt key (some (name, v)) = if key = name then some v else none := rfl

@[simp] theorem valueAt_present {α : Type} (key name : String) (f : α → Json) (a : Option α) :
    valueAt key (present name f a) = if key = name then a.map f else none := by
  cases a with
  | none => simp [valueAt, present]
  | some a => rfl

@[simp] theorem valueAt_ite (key name : String) (v : Json) (b : Bool) :
    valueAt key (if b then some (name, v) else none) =
      if key = name then (if b then some v else none) else none := by
  cases b <;> simp [valueAt]

@[simp] theorem field?_ofFields_nil (key : String) : (ofFields []).field? key = none := rfl

/-- A field is found at its first name. -/
@[simp] theorem field?_ofFields_cons (key : String) (o : Option (String × Json))
    (fields : List (Option (String × Json))) :
    (ofFields (o :: fields)).field? key = (valueAt key o).or ((ofFields fields).field? key) := by
  cases o with
  | none => rfl
  | some f =>
    have hfields : ofFields (some f :: fields) = .object (f :: fields.filterMap id) := rfl
    rw [hfields, field?, lookup_cons_eq_ite, valueAt_some]
    split <;> rfl

/-! ### Reading what is written -/

/-- Whatever `write` gives, `read` turns back, and null is none of it. -/
structure Undoes {α : Type} (read : Json → Option α) (write : α → Json) : Prop where
  read_write : ∀ a, read (write a) = some a
  read_null : read .null = none

private theorem undoes_string : Undoes string? .string := ⟨fun _ => rfl, rfl⟩

private theorem undoes_bool : Undoes bool? .bool := ⟨fun _ => rfl, rfl⟩

private theorem undoes_nat : Undoes nat? nat := ⟨fun _ => rfl, rfl⟩

/-- Reading all that is written gives all that was written. -/
private theorem mapM_map_eq_some {α β : Type} {read : β → Option α} {write : α → β}
    (h : ∀ a, read (write a) = some a) (as : List α) : (as.map write).mapM read = some as := by
  induction as with
  | nil => rfl
  | cons a as ih => simp [h, ih]

section

variable {α : Type} {read : Json → Option α} {write : α → Json} (h : Undoes read write)
include h

/-- A reader of lists, item by item. -/
theorem Undoes.list : Undoes (list? read) (fun as => .array (as.map write)) := by
  refine ⟨fun as => ?_, rfl⟩
  rw [list?, array?, Option.bind_some, mapM_map_eq_some h.read_write]

/-- A reader of tables, entry by entry. -/
theorem Undoes.table : Undoes (table? read) (ofTable write) := by
  refine ⟨fun t => ?_, rfl⟩
  have hentries : (t.entries.map fun e => (e.1, write e.2)).mapM
      (fun f => (read f.2).map fun a => (f.1, a)) = some t.entries :=
    mapM_map_eq_some (fun e => by rw [h.read_write, Option.map_some]) t.entries
  rw [table?, ofTable, object?, Option.bind_some, hentries, Option.map_some,
    NameTable.ofList_entries]

section

variable {key : String} {fields : List (Option (String × Json))}

/-- A field that must be there, and is. -/
theorem Undoes.required {a : α} (hfield : (ofFields fields).field? key = some (write a)) :
    required? read key (fields.filterMap id) = some a := by
  have hlookup : (fields.filterMap id).lookup key = some (write a) := hfield
  rw [required?, hlookup, Option.bind_some, h.read_write]

/-- A field that is left out for the default is read as the default. -/
theorem Undoes.defaulted {a : Option α} (default : α)
    (hfield : (ofFields fields).field? key = a.map write) :
    defaulted? read default key (fields.filterMap id) = some (a.getD default) := by
  have hlookup : (fields.filterMap id).lookup key = a.map write := hfield
  rw [defaulted?, hlookup]
  cases a with
  | none => rfl
  | some a => exact h.read_write a

/-- A field that is left out for none is read as none. -/
theorem Undoes.maybe {a : Option α} (hfield : (ofFields fields).field? key = a.map write) :
    defaulted? (maybe? read) none key (fields.filterMap id) = some a := by
  have hlookup : (fields.filterMap id).lookup key = a.map write := hfield
  rw [defaulted?, hlookup]
  cases a with
  | none => rfl
  | some a =>
    have hread := h.read_write a
    change maybe? read (write a) = _
    unfold maybe?
    split
    -- Null would be read as none, but `read` gives nothing for it.
    · next hnull =>
      rw [hnull, h.read_null] at hread
      cases hread
    · rw [hread, Option.map_some]

end

end

end Json

open Json

/-! ### Records -/

/-- The fields of a record have the given names, where they are present, and values with a
property. -/
inductive Json.NamedFields (p : Json → Prop) :
    List String → List (Option (String × Json)) → Prop where
  | nil : NamedFields p [] []
  | cons {name : String} {names : List String} {o : Option (String × Json)}
    {fields : List (Option (String × Json))} (h : ∀ f ∈ o, f.1 = name ∧ p f.2)
    (rest : NamedFields p names fields) : NamedFields p (name :: names) (o :: fields)

namespace Json.NamedFields

variable {p : Json → Prop} {name : String} {names : List String}
  {fields : List (Option (String × Json))}

theorem written {v : Json} (h : p v) (rest : NamedFields p names fields) :
    NamedFields p (name :: names) (some (name, v) :: fields) :=
  .cons (by rintro f ⟨⟩; exact ⟨rfl, h⟩) rest

theorem present {α : Type} {write : α → Json} {a : Option α} (h : ∀ x ∈ a, p (write x))
    (rest : NamedFields p names fields) :
    NamedFields p (name :: names) (Json.present name write a :: fields) := by
  refine .cons (fun f hf => ?_) rest
  obtain ⟨x, hx, rfl⟩ := Option.map_eq_some_iff.1 hf
  exact ⟨rfl, h x hx⟩

/-- The names that are written are among the names there are, in their order. -/
theorem names_sublist (h : NamedFields p names fields) :
    ((fields.filterMap id).map Prod.fst).Sublist names := by
  induction h with
  | nil => exact .slnil
  | @cons name names o fields ho _ ih =>
    cases o with
    | none => exact ih.cons name
    | some f =>
      obtain ⟨rfl, -⟩ := ho f rfl
      exact ih.cons_cons f.1

private theorem of_mem (h : NamedFields p names fields) {f : String × Json}
    (hf : f ∈ fields.filterMap id) : p f.2 := by
  obtain ⟨o, ho, hof⟩ := List.mem_filterMap.1 hf
  clear hf
  induction h with
  | nil => cases ho
  | cons hnew _ ih =>
    rcases List.mem_cons.1 ho with rfl | ho
    · exact (hnew f hof).2
    · exact ih ho

theorem imp {q : Json → Prop} (hpq : ∀ v, p v → q v) (h : NamedFields p names fields) :
    NamedFields q names fields := by
  induction h with
  | nil => exact .nil
  | cons hnew _ ih => exact .cons (fun f hf => ⟨(hnew f hf).1, hpq _ (hnew f hf).2⟩) ih

/-- A record is taken for one if its fields have different names. -/
theorem record?_eq (h : NamedFields p names fields) (hnames : names.Nodup) :
    (ofFields fields).record? names = some (fields.filterMap id) :=
  if_pos ((hnames.sublist h.names_sublist).filter _)

end Json.NamedFields

/-- The numbers of an issue have 64 bits. -/
structure Issue.HasWords (i : Issue) : Prop where
  line : ∀ n ∈ i.line, n ≤ maxWord
  column : ∀ n ∈ i.column, n ≤ maxWord

/-- The numbers of a usage have 64 bits. -/
structure Usage.HasWords (u : Usage) : Prop where
  lineNumber : u.lineNumber ≤ maxWord
  column : u.column ≤ maxWord
  parent : ∀ n ∈ u.parent, n ≤ maxWord
  issues : ∀ i ∈ u.issues, i.HasWords

section

variable {double : Float → Prop} {n : Nat}

private theorem Json.legible_nat {k : Nat} (h : k ≤ maxWord) : Legible double n (.nat k) :=
  .int ⟨by omega, by omega⟩

/-- A record is legible if its fields have different names. -/
theorem Json.NamedFields.legible {names : List String} {fields : List (Option (String × Json))}
    (h : NamedFields (Legible double n) names fields) (hnames : names.Nodup) :
    Legible double (n + 1) (ofFields fields) :=
  .object (hnames.sublist h.names_sublist) fun _ hf => h.of_mem hf

private theorem legible_tagged {kind : String} {v : Json} (h : Legible double n v) :
    Legible double (n + 1) (tagged kind v) := by
  simp [tagged, h]

private theorem legible_propValue (v : PropValue) : Legible double (n + 2) v.toJson := by
  cases v with
  | literal l =>
    cases l with
    | string s => exact legible_tagged (legible_tagged (.string s))
    | number s => exact legible_tagged (legible_tagged (.string s))
    | bool b => exact legible_tagged (legible_tagged (.bool b))
  | reference s => exact legible_tagged (.string s)
  | unresolved => simp [PropValue.toJson]

private theorem legible_props (t : Props) :
    Legible double (n + 3) (ofTable PropValue.toJson t) := by
  refine .object ?_ fun f hf => ?_
  · rw [List.map_map]
    exact t.nodup_keys
  · obtain ⟨e, -, rfl⟩ := List.mem_map.1 hf
    exact legible_propValue e.2

/-- The fields of an issue have its keys, and legible values when its numbers have 64 bits. -/
theorem Issue.namedFields (i : Issue) :
    NamedFields (fun v => i.HasWords → Legible double n v) Issue.keys i.fields :=
  .written (fun _ => .string i.kind.label) <| .written (fun _ => .string i.severity.label) <|
  .written (fun _ => .string i.message) <| .written (fun _ => .string i.rule) <|
  .present (a := i.prop) (fun s _ _ => .string s) <|
  .present (a := i.line) (fun k hk h => legible_nat (h.line k hk)) <|
  .present (a := i.column) (fun k hk h => legible_nat (h.column k hk)) .nil

/-- The fields of an issue have different names. -/
theorem Issue.nodup_keys : Issue.keys.Nodup := by decide

private theorem legible_issue {i : Issue} (h : i.HasWords) : Legible double (n + 1) i.toJson :=
  (i.namedFields.imp fun _ hv => hv h).legible Issue.nodup_keys

/-- The fields of a usage have its keys, and legible values when its numbers have 64 bits. -/
theorem Usage.namedFields (u : Usage) :
    NamedFields (fun v => u.HasWords → Legible double (n + 3) v) Usage.keys u.fields := by
  have hissues (h : u.HasWords) : Legible double (n + 3) (.array (u.issues.map Issue.toJson)) := by
    refine .array fun v hv => ?_
    obtain ⟨i, hi, rfl⟩ := List.mem_map.1 hv
    exact legible_issue (h.issues i hi)
  have hspread : ∀ f ∈ if u.spread then some ("spread", Json.bool true) else none,
      f.1 = "spread" ∧ (u.HasWords → Legible double (n + 3) f.2) := by
    cases u.spread <;> simp
  exact
    .written (fun _ => .string u.componentName) <| .written (fun _ => .string u.tag) <|
    .written (fun _ => .string u.filePath) <| .written (fun h => legible_nat h.lineNumber) <|
    .written (fun h => legible_nat h.column) <| .written (fun _ => legible_props u.props) <|
    .cons hspread <| .present (a := u.parent) (fun k hk h => legible_nat (h.parent k hk)) <|
    .written (fun _ => .bool u.isCompliant) <| .written hissues .nil

/-- So have those of a usage. -/
theorem Usage.nodup_keys : Usage.keys.Nodup := by decide

/-- **The text of a usage can be read back**, as far as its numbers fit a word. -/
theorem legible_usage {u : Usage} (h : u.HasWords) : Legible double (n + 4) u.toJson :=
  (u.namedFields.imp fun _ hv => hv h).legible Usage.nodup_keys

end

/-! ### Values and issues -/

private theorem tagged?_tagged (kind : String) (v : Json) :
    (tagged kind v).tagged? = some (kind, some v) :=
  rfl

/-- The value of a literal is read back. -/
theorem undoes_literal : Undoes Literal.ofJson? Literal.toJson := by
  refine ⟨fun l => ?_, rfl⟩
  cases l <;> rfl

/-- The value of a prop is read back. -/
theorem undoes_propValue : Undoes PropValue.ofJson? PropValue.toJson := by
  refine ⟨fun v => ?_, rfl⟩
  cases v with
  | literal l =>
    have hl := undoes_literal.read_write l
    rw [PropValue.ofJson?, PropValue.toJson, tagged?_tagged]
    simp only [hl, Option.map_some]
  | reference s => rfl
  | unresolved => rfl

private theorem undoes_issueKind :
    Undoes (fun j => j.case?.bind IssueKind.ofLabel?) (fun k => .string k.label) :=
  ⟨fun k => by cases k <;> decide, rfl⟩

private theorem undoes_severity :
    Undoes (fun j => j.case?.bind Severity.ofLabel?) (fun s => .string s.label) :=
  ⟨fun s => by cases s <;> decide, rfl⟩

/-- An issue is read back. -/
theorem undoes_issue : Undoes Issue.ofJson? Issue.toJson := by
  refine ⟨fun i => ?_, rfl⟩
  have hrecord : i.toJson.record? Issue.keys = some (i.fields.filterMap id) :=
    (@Issue.namedFields ReadsBack 0 i).record?_eq Issue.nodup_keys
  have hkind := undoes_issueKind.required (show (ofFields i.fields).field? "type" =
    some (.string i.kind.label) by simp [Issue.fields])
  have hseverity := undoes_severity.required (show (ofFields i.fields).field? "severity" =
    some (.string i.severity.label) by simp [Issue.fields])
  have hmessage := undoes_string.required (show (ofFields i.fields).field? "message" =
    some (.string i.message) by simp [Issue.fields])
  have hrule := undoes_string.required (show (ofFields i.fields).field? "rule" =
    some (.string i.rule) by simp [Issue.fields])
  have hprop := undoes_string.maybe (show (ofFields i.fields).field? "prop" =
    i.prop.map .string by simp [Issue.fields])
  have hline := undoes_nat.maybe (show (ofFields i.fields).field? "line" =
    i.line.map .nat by simp [Issue.fields])
  have hcolumn := undoes_nat.maybe (show (ofFields i.fields).field? "column" =
    i.column.map .nat by simp [Issue.fields])
  simp only [Issue.ofJson?, hrecord, Option.bind_eq_bind, Option.bind_some, hkind, hseverity,
    hmessage, hrule, hprop, hline, hcolumn, Option.pure_def]

/-! ### Usages -/

/-- **A usage is read back** from its record. -/
theorem undoes_usage : Undoes Usage.ofJson? Usage.toJson := by
  refine ⟨fun u => ?_, rfl⟩
  have hrecord : u.toJson.record? Usage.keys = some (u.fields.filterMap id) :=
    (@Usage.namedFields ReadsBack 0 u).record?_eq Usage.nodup_keys
  -- Field by field; one that may be missing is read with its default.
  have hname := undoes_string.required (show (ofFields u.fields).field? "componentName" =
    some (.string u.componentName) by simp [Usage.fields])
  have htag := undoes_string.required (show (ofFields u.fields).field? "tag" =
    some (.string u.tag) by simp [Usage.fields])
  have hfile := undoes_string.required (show (ofFields u.fields).field? "filePath" =
    some (.string u.filePath) by simp [Usage.fields])
  have hline := undoes_nat.required (show (ofFields u.fields).field? "lineNumber" =
    some (.nat u.lineNumber) by simp [Usage.fields])
  have hcolumn := undoes_nat.required (show (ofFields u.fields).field? "column" =
    some (.nat u.column) by simp [Usage.fields])
  have hprops := undoes_propValue.table.required (show (ofFields u.fields).field? "props" =
    some (ofTable PropValue.toJson u.props) by simp [Usage.fields])
  have hspread := undoes_bool.defaulted false (show (ofFields u.fields).field? "spread" =
    (if u.spread then some true else none).map .bool by
      cases h : u.spread <;> simp [Usage.fields, h])
  have hparent := undoes_nat.maybe (show (ofFields u.fields).field? "parent" =
    u.parent.map .nat by simp [Usage.fields])
  have hcompliant := undoes_bool.required (show (ofFields u.fields).field? "isCompliant" =
    some (.bool u.isCompliant) by simp [Usage.fields])
  have hissues := undoes_issue.list.defaulted [] (show (ofFields u.fields).field? "issues" =
    (some u.issues).map fun is => .array (is.map Issue.toJson) by simp [Usage.fields])
  have hdefault : (if u.spread then some true else none).getD false = u.spread := by
    cases u.spread <;> rfl
  simp only [Usage.ofJson?, hrecord, Option.bind_eq_bind, Option.bind_some, hname, htag, hfile,
    hline, hcolumn, hprops, hspread, hparent, hcompliant, hissues, hdefault, Option.getD_some,
    Option.pure_def]

/-! ### Texts -/

/-- **The record of a usage is read back.** It gives the usage, from the value and, when the numbers
have 64 bits, from either text. A field is left out exactly when it is the default, and usages with
the same record or the same text are equal. -/
theorem Usage.record_reads_back (u : Usage) :
    Usage.ofJson? u.toJson = some u ∧
    (u.HasWords → (Json.parse? u.toJson.compact).bind Usage.ofJson? = some u ∧
      (Json.parse? u.toJson.pretty).bind Usage.ofJson? = some u) ∧
    (u.toJson.field? "spread" = none ↔ u.spread = false) ∧
    (u.toJson.field? "parent" = none ↔ u.parent = none) ∧
    (∀ i : Issue, (i.toJson.field? "prop" = none ↔ i.prop = none) ∧
      (i.toJson.field? "line" = none ↔ i.line = none) ∧
      (i.toJson.field? "column" = none ↔ i.column = none)) ∧
    (∀ w : Usage, w.toJson = u.toJson → w = u) ∧
    ∀ w : Usage, u.HasWords → w.HasWords →
      w.toJson.compact = u.toJson.compact ∨ w.toJson.pretty = u.toJson.pretty → w = u := by
  have hread := undoes_usage.read_write
  have htexts : ∀ w : Usage, w.HasWords →
      (Json.parse? w.toJson.compact).bind Usage.ofJson? = some w ∧
        (Json.parse? w.toJson.pretty).bind Usage.ofJson? = some w := by
    intro w hw
    have hlegible : Legible ReadsBack maxLevels w.toJson := legible_usage hw
    rw [parse?_compact hlegible, parse?_pretty hlegible]
    exact ⟨hread w, hread w⟩
  refine ⟨hread u, htexts u, by simp [Usage.toJson, Usage.fields],
    by simp [Usage.toJson, Usage.fields], fun i => by simp [Issue.toJson, Issue.fields],
    fun w hw => ?_, fun w hu hw hsame => ?_⟩
  · exact Option.some.inj ((hread w).symm.trans ((congrArg Usage.ofJson? hw).trans (hread u)))
  · obtain ⟨hcompactU, hprettyU⟩ := htexts u hu
    obtain ⟨hcompactW, hprettyW⟩ := htexts w hw
    rcases hsame with hsame | hsame
    · rw [hsame, hcompactU] at hcompactW
      exact (Option.some.inj hcompactW).symm
    · rw [hsame, hprettyU] at hprettyW
      exact (Option.some.inj hprettyW).symm

/-- A usage with every kind of prop value, a spread, a parent and an issue without a prop. -/
theorem Usage.record_reads_back_button :
    let u : Usage := {
      componentName := "va-button", tag := "VaButton", filePath := "app/Page.tsx"
      lineNumber := 3, column := 7
      props := .ofList [("text", .string "say \"go\"\n"), ("big", .bool false),
        ("width", .literal (.number "1e3")), ("onClick", .reference "submit"), ("id", .unresolved)]
      spread := true, parent := some 0, isCompliant := false
      issues := [{ kind := .bestPractice, severity := .info, message := "m", rule := "r"
                   line := some 3 }] }
    u.HasWords ∧ (Json.parse? u.toJson.compact).bind Usage.ofJson? = some u ∧
      (Json.parse? u.toJson.pretty).bind Usage.ofJson? = some u := by
  intro u
  have hwords : u.HasWords := by
    refine ⟨by decide, by decide, by decide, ?_⟩
    intro i hi
    obtain rfl := List.mem_singleton.1 hi
    exact ⟨by decide, by decide⟩
  exact ⟨hwords, (Usage.record_reads_back u).2.1 hwords⟩

end ComponentAudit
