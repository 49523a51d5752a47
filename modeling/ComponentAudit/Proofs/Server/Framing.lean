import ComponentAudit.Proofs.Json.Reading
import ComponentAudit.Proofs.NameTable
import ComponentAudit.Proofs.Script.Expression
import ComponentAudit.Proofs.Text.Search
import ComponentAudit.Server.Session

/-!
# Framing of replies

A client sends one request per line and reads one reply per line, so it must be able to tell from a
line alone whether a reply follows, which request it belongs to and whether it succeeded.
`handleLine_framed` says that it can: a line without a reply is blank or a notification, and every
reply is one line with a JSON object that has the id of the request and either a result or an
error. The tools may do anything. What they give is wrapped as a text, and whatever line breaks it
has are escaped there.

The id goes through the reader and back through the printer, so that it comes back unchanged as far
as its doubles are read back. Everything else of a reply is legible by construction.
-/

namespace ComponentAudit

open Json

/-! ### Results of computations -/

section

variable {m : Type → Type} [Monad m] {α β : Type}

/-- Whatever the computation gives has the property. -/
def Yields (x : m α) (p : α → Prop) : Prop := ∃ y : m { a // p a }, Subtype.val <$> y = x

theorem Yields.pure [LawfulMonad m] {p : α → Prop} {a : α} (h : p a) :
    Yields (Pure.pure a : m α) p :=
  ⟨Pure.pure ⟨a, h⟩, map_pure _ _⟩

/-- What the last step yields is yielded. -/
theorem Yields.bind [LawfulMonad m] {p : β → Prop} (x : m α) {f : α → m β}
    (h : ∀ a, Yields (f a) p) : Yields (x >>= f) p := by
  refine ⟨x >>= fun a => (h a).choose, ?_⟩
  rw [map_bind]
  exact congrArg (x >>= ·) (funext fun a => (h a).choose_spec)

end

/-! ### Lines without a reply -/

private theorem Text.trim_eq_nil_iff {s : List Char} :
    Text.trim s = [] ↔ ∀ c ∈ s, Text.isBlank c = true := by
  induction s with
  | nil => simp [Text.trim, Text.trimStart, Text.trimEnd]
  | cons c s ih =>
    cases hc : Text.isBlank c with
    | true =>
      have hskip : Text.trim (c :: s) = Text.trim s := by simp [Text.trim, Text.trimStart, hc]
      rw [hskip, ih]
      simp [hc]
    | false =>
      have hkeep : Text.trim (c :: s) ≠ [] := by
        rw [Text.trim, Text.trimStart_cons hc, Text.trimEnd, List.reverse_cons,
          List.dropWhile_append]
        split <;> simp [hc]
      simp [hkeep, hc]

/-- A line gets no reply when it is blank, or a request without id for one of the methods that only
notify. -/
def Silent (line : String) : Prop :=
  (∀ c ∈ line.toList, Text.isBlank c = true) ∨
    ∃ q, Request.parse? line = some q ∧ q.id = .null ∧
      "notifications/".toList <+: q.method.toList

/-- A notification has no id and a method that says so. -/
theorem Request.isNotification_iff {q : Request} :
    q.isNotification = true ↔ q.id = .null ∧ "notifications/".toList <+: q.method.toList := by
  rw [isNotification, Bool.and_eq_true, Text.startsWith_iff_isPrefix]
  refine and_congr_left fun _ => ?_
  cases q.id <;> simp

/-! ### Ids of requests -/

/-- The id that a line asks with: that of its request, or null when it is none. -/
def askedId (line : String) : Json := ((Request.parse? line).map (·.id)).getD .null

private theorem Request.id_of_ofParts? {id method params : Option Json} {q : Request}
    (h : ofParts? id method params = some q) : q.id = id.getD .null := by
  unfold ofParts? at h
  split at h
  · obtain rfl := Option.some.inj h
    rfl
  · cases h

/-- An id among fields has been read with the levels of a request. -/
private theorem Request.legible_id_of_fields {fuel : Nat} {s r : List Char}
    {fs : List (String × Json)} {q : Request}
    (hfields : Json.fields (requestField fuel) fuel s = some (fs, r))
    (hq : ofFields? fs = some q) : Legible (fun _ => True) innerLevels q.id := by
  rw [ofFields?] at hq
  split at hq
  · rw [id_of_ofParts? hq]
    cases hid : fs.lookup "id" with
    | none => exact .null
    | some v =>
      obtain ⟨before, after, hfs, -⟩ := List.lookup_eq_some_iff.1 hid
      rw [fields_eq_bracketed] at hfields
      have hmem : ("id", v) ∈ fs := hfs ▸ List.mem_append_right before List.mem_cons_self
      obtain ⟨s₁, r₁, hfield⟩ := mem_bracketed hfields hmem
      obtain ⟨s₂, hvalue⟩ := value_of_field hfield
      exact legible_of_value hvalue
  · cases hq

/-- An id among items has been read with the levels of a request. -/
private theorem Request.legible_id_of_items {fuel : Nat} {s r : List Char} {vs : List Json}
    {q : Request}
    (hitems : Json.items (value (some innerLevels) fuel) fuel s = some (vs, r))
    (hq : ofItems? vs = some q) : Legible (fun _ => True) innerLevels q.id := by
  unfold ofItems? at hq
  split at hq
  · next id method params =>
    rw [id_of_ofParts? hq, Option.getD_some]
    rw [items_eq_bracketed] at hitems
    obtain ⟨s₁, r₁, hvalue⟩ := mem_bracketed hitems List.mem_cons_self
    exact legible_of_value hvalue
  · cases hq

/-- The id of a request that is read can stand in a reply. -/
theorem Request.legible_id {line : String} {q : Request} (h : Request.parse? line = some q) :
    Legible (fun _ => True) innerLevels q.id := by
  rw [parse?] at h
  split at h
  · next q' r hreader =>
    split at h
    · obtain rfl := Option.some.inj h
      rw [reader] at hreader
      split at hreader
      · obtain ⟨⟨fs, r'⟩, hfields, hq⟩ := Option.bind_eq_some_iff.1 hreader
        obtain ⟨q', hq', hpair⟩ := Option.map_eq_some_iff.1 hq
        obtain ⟨rfl, -⟩ := Prod.mk.inj hpair
        exact legible_id_of_fields hfields hq'
      · obtain ⟨⟨vs, r'⟩, hitems, hq⟩ := Option.bind_eq_some_iff.1 hreader
        obtain ⟨q', hq', hpair⟩ := Option.map_eq_some_iff.1 hq
        obtain ⟨rfl, -⟩ := Prod.mk.inj hpair
        exact legible_id_of_items hitems hq'
      · cases hreader
    · cases h
  · cases h

/-! ### Replies -/

/-- What makes a reply that of a line: it has the id of the line, a result of it is legible, and it
says that the line is no request exactly when it is none. -/
structure Reply.Answers (line : String) (r : Reply) : Prop where
  id : r.id = askedId line
  legible : ∀ v, r.outcome = .ok v → Legible ReadsBack Request.innerLevels v
  unreadable : (∃ e, r.outcome = .error e ∧ e.code = -32700) ↔ Request.parse? line = none

/-- What a client can rely on of a reply to a line. -/
structure Reply.FramedFor (line : String) (r : Reply) : Prop where
  /-- The text of the reply has no line break, nor any other control character. -/
  oneLine : NoControl r.line.toList
  /-- The text is an object with the id of the line and exactly one of a result and an error, whose
  code says whether the line was a request. -/
  reads : (∀ x, HasDouble x (askedId line) → ReadsBack x) →
    ∃ fields, Json.parse? r.line = some (.object fields) ∧
      fields.lookup "jsonrpc" = some (.string "2.0") ∧
      fields.lookup "id" = some (askedId line) ∧
      ((fields.lookup "result").isSome ↔ fields.lookup "error" = none) ∧
      ((fields.lookup "error").bind (·.field? "code") = some (.int (-32700)) ↔
        Request.parse? line = none)

/-- The id that a line asks with can stand in a reply, as far as its doubles can. -/
theorem legible_askedId {line : String}
    (h : ∀ x, HasDouble x (askedId line) → ReadsBack x) :
    Legible ReadsBack Request.innerLevels (askedId line) := by
  have hread : Legible (fun _ => True) Request.innerLevels (askedId line) := by
    unfold askedId
    cases hq : Request.parse? line with
    | none => exact .null
    | some q => exact Request.legible_id hq
  exact hread.of_doubles h

/-- An error can be read back. -/
theorem RequestError.legible_toJson {n : Nat} (e : RequestError) :
    Legible ReadsBack (n + 1) e.toJson := by
  have hcode : -32768 ≤ e.code ∧ e.code ≤ 0 := by cases e <;> simp [code]
  have hword : IsWord e.code := isWord_iff.2 (by omega)
  simp [toJson, hword]

/-- A reply is read back as it is. -/
theorem Reply.Answers.parse?_line {line : String} {r : Reply} (h : r.Answers line)
    (hdoubles : ∀ x, HasDouble x (askedId line) → ReadsBack x) :
    Json.parse? r.line = some r.toJson := by
  have hid : Legible ReadsBack Request.innerLevels r.id := h.id ▸ legible_askedId hdoubles
  have hlegible : Legible ReadsBack (Request.innerLevels + 1) r.toJson := by
    rw [Reply.toJson]
    cases houtcome : r.outcome with
    | ok v => simp [hid, h.legible v houtcome]
    | error e =>
      have he : Legible ReadsBack Request.innerLevels e.toJson := e.legible_toJson
      simp [hid, he]
  exact parse?_compact hlegible

/-- An answer to a line fits in its frame. -/
theorem Reply.Answers.framed {line : String} {r : Reply} (h : r.Answers line) :
    r.FramedFor line := by
  refine ⟨noControl_compact r.toJson, fun hdoubles => ?_⟩
  refine ⟨_, h.parse?_line hdoubles, ?_⟩
  rw [← h.unreadable, ← h.id]
  cases houtcome : r.outcome with
  | ok v => simp [lookup_cons_eq_ite]
  | error e => simp [lookup_cons_eq_ite, RequestError.toJson, field?]

/-! ### What a line means -/

/-- The code of a line that is no request is given to no other error. -/
theorem RequestError.code_eq_iff {e : RequestError} :
    e.code = -32700 ↔ ∃ detail, e = .unreadable detail := by
  cases e <;> simp [code]

private theorem bind_ne_error {ε α β : Type} {e : ε} {x : Except ε α} {f : α → Except ε β}
    (hx : x ≠ .error e) (hf : ∀ a, f a ≠ .error e) : (x >>= f) ≠ .error e := by
  cases x with
  | error e' => exact fun h => hx (congrArg Except.error (Except.error.inj h))
  | ok a => exact hf a

namespace ToolCall

variable {detail : String}

private theorem textArgument_ne_unreadable (args : Json) (key : String) :
    textArgument args key ≠ .error (.unreadable detail) := by
  unfold textArgument
  split <;> simp

private theorem ofArguments_ne_unreadable (name : String) (args : Json) :
    ofArguments name args ≠ .error (.unreadable detail) := by
  unfold ofArguments
  split
  · exact bind_ne_error (textArgument_ne_unreadable args _) fun path => by simp [pure, Except.pure]
  · refine bind_ne_error (textArgument_ne_unreadable args _) fun file => ?_
    exact bind_ne_error (textArgument_ne_unreadable args _) fun name => by simp [pure, Except.pure]
  · refine bind_ne_error (textArgument_ne_unreadable args _) fun path => ?_
    dsimp only
    split <;> simp [pure, Except.pure]
  · simp

/-- A call that cannot be made is another error than a line that cannot be read. -/
theorem ofParams_ne_unreadable (params : Option Json) :
    ofParams params ≠ .error (.unreadable detail) := by
  cases params with
  | none => simp [ofParams]
  | some params =>
    exact bind_ne_error (textArgument_ne_unreadable params _) fun name =>
      ofArguments_ne_unreadable name _

end ToolCall

namespace LineMeaning

/-- What a line means is what the client expects of it. -/
def Fits (line : String) : LineMeaning → Prop
  | .silence => Silent line
  | .reply r => ¬ Silent line ∧ r.Answers line
  | .call id _ => ¬ Silent line ∧ id = askedId line ∧ Request.parse? line ≠ none

variable {line : String}

section

variable {n : Nat}

private theorem legible_introduction : Legible ReadsBack (n + 3) introduction := by
  simp [introduction]

private theorem legible_tools :
    Legible ReadsBack (n + 7) (.object [("tools", toolSchemas)]) := by
  simp [toolSchemas, toolSchema, propertySchema, strings]

private theorem legible_empty : Legible ReadsBack (n + 1) (.object []) := by simp

end

/-- What a request means fits the line it is read from. -/
theorem fits_ofRequest {q : Request} (hq : Request.parse? line = some q) (hsilent : ¬ Silent line) :
    (ofRequest q).Fits line := by
  have hid : q.id = askedId line := by simp [askedId, hq]
  have hok : ∀ v, Legible ReadsBack Request.innerLevels v → (reply ⟨q.id, .ok v⟩).Fits line :=
    fun v hv => ⟨hsilent, hid, by simpa using hv, by simp [hq]⟩
  have herror : ∀ e, (∀ detail, e ≠ RequestError.unreadable detail) →
      (reply ⟨q.id, .error e⟩).Fits line :=
    fun e he => ⟨hsilent, hid, by simp, by simp [hq, RequestError.code_eq_iff, he]⟩
  unfold ofRequest
  split
  · exact hok _ legible_introduction
  · exact hok _ legible_tools
  · split
    · exact ⟨hsilent, hid, by simp [hq]⟩
    · next e he =>
      refine herror e fun detail hunreadable => ?_
      exact ToolCall.ofParams_ne_unreadable q.params (hunreadable ▸ he)
  · exact hok _ legible_empty
  · exact hok _ legible_empty
  · exact herror _ (by simp)

/-- What a line means fits the line. -/
theorem fits_ofLine (fault : String → String) (line : String) :
    (ofLine fault line).Fits line := by
  unfold ofLine
  split
  · next hblank => exact .inl (Text.trim_eq_nil_iff.1 (List.isEmpty_iff.1 hblank))
  · next hblank =>
    have htext : ¬ ∀ c ∈ line.toList, Text.isBlank c = true :=
      fun h => hblank (List.isEmpty_iff.2 (Text.trim_eq_nil_iff.2 h))
    split
    · next hnone =>
      have hsilent : ¬ Silent line := by
        rintro (h | ⟨q, hq, -⟩)
        · exact htext h
        · exact absurd (hnone.symm.trans hq) nofun
      exact ⟨hsilent, by simp [askedId, hnone], nofun, by simp [hnone, RequestError.code]⟩
    · next q hq =>
      split
      · next hnotify =>
        exact .inr ⟨q, hq, Request.isNotification_iff.1 hnotify⟩
      · next hnotify =>
        refine fits_ofRequest hq ?_
        rintro (h | ⟨q', hq', h⟩)
        · exact htext h
        · obtain rfl := Option.some.inj (hq.symm.trans hq')
          exact hnotify (Request.isNotification_iff.2 h)

end LineMeaning

private theorem ToolCall.legible_content {n : Nat} (v : Json) :
    Legible ReadsBack (n + 3) (content v) := by
  simp [content]

/-- What a client can rely on of the answer to a line. -/
structure Framed (line : String) (answer : Option Reply) : Prop where
  silent : answer = none ↔ Silent line
  reply : ∀ r, answer = some r → r.FramedFor line

private theorem Framed.of_silent {line : String} (h : Silent line) : Framed line none :=
  ⟨by simp [h], nofun⟩

private theorem Framed.of_answers {line : String} {r : Reply} (hsilent : ¬ Silent line)
    (h : r.Answers line) : Framed line (some r) :=
  ⟨by simp [hsilent], by rintro r ⟨⟩; exact h.framed⟩

/-- **Lines are answered one for one.** Whatever the tools do and whatever is said about a line that
is no request, a line gets no reply exactly when it is blank or a notification, and a reply to any
other is one line with the id of the request and either a result or an error. -/
theorem handleLine_framed {m : Type → Type} [Monad m] [LawfulMonad m] (fault : String → String)
    (tools : ToolCall → m (Except AuditError Json)) (line : String) :
    Yields (handleLine fault tools line) (Framed line) := by
  have hfits := LineMeaning.fits_ofLine fault line
  unfold handleLine
  split
  · next hline =>
    rw [hline] at hfits
    exact .pure (.of_silent hfits)
  · next r hline =>
    rw [hline] at hfits
    exact .pure (.of_answers hfits.1 hfits.2)
  · next id tool hline =>
    rw [hline] at hfits
    -- The tool decides between result and error, and over nothing else.
    obtain ⟨hsilent, hid, hparse⟩ := hfits
    refine .bind (tools tool) fun found => ?_
    split
    · next v =>
      refine .pure (.of_answers hsilent ⟨hid, ?_, by simp [hparse]⟩)
      rintro w ⟨⟩
      exact ToolCall.legible_content v
    · next e =>
      exact .pure (.of_answers hsilent ⟨hid, nofun, by simp [hparse, RequestError.code]⟩)

/-- A tool that fails with a line break in its message, called with an id that has a double and
a line break. -/
theorem handleLine_framed_failed_call :
    let line := "[[1.5,\"\\n\"],\"tools/call\"," ++
      "\x7b\"name\":\"scan_components\",\"arguments\":\x7b\"path\":\"\"\x7d\x7d]"
    let fault := AuditError.invalidConfig ⟨"p"⟩ "a\nb"
    ∃ r, handleLine (m := Id) id (fun _ => .error fault) line = some r ∧ NoControl r.line.toList ∧
      ∃ fields, Json.parse? r.line = some (.object fields) ∧
        fields.lookup "id" = some (.array [.float 1.5, .string "\n"]) ∧
        (fields.lookup "error").bind (·.field? "code") ≠ some (.int (-32700)) := by
  intro line fault
  obtain ⟨y, hy⟩ := handleLine_framed (m := Id) id (fun _ => .error fault) line
  have hframed : Framed line (handleLine (m := Id) id (fun _ => .error fault) line) := hy ▸ y.2
  have hanswer : handleLine (m := Id) id (fun _ => .error fault) line =
      some ⟨.array [.float 1.5, .string "\n"], .error (.failed fault)⟩ := by
    simp only [line]
    rfl
  have hid : (Request.parse? line).map (·.id) = some (.array [.float 1.5, .string "\n"]) := by
    simp only [line]
    rfl
  have hasked : askedId line = .array [.float 1.5, .string "\n"] := by
    rw [askedId, hid, Option.getD_some]
  have hdoubles : ∀ x, HasDouble x (askedId line) → ReadsBack x := by
    rw [hasked]
    intro x hx
    cases hx with
    | item hv hx =>
      simp only [List.mem_cons, List.not_mem_nil, or_false] at hv
      rcases hv with rfl | rfl <;> cases hx
      rfl
  obtain ⟨honeLine, hreads⟩ := hframed.reply _ hanswer
  obtain ⟨fields, hparse, -, hfid, -, hcode⟩ := hreads hdoubles
  refine ⟨_, hanswer, honeLine, fields, hparse, hasked ▸ hfid, ?_⟩
  rw [ne_eq, hcode]
  intro hnone
  rw [hnone] at hid
  cases hid

end ComponentAudit
