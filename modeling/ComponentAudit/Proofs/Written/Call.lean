import ComponentAudit.Proofs.Outline
import ComponentAudit.Proofs.Script.ObjectLiteral
import ComponentAudit.Proofs.Written.Code
import ComponentAudit.Proofs.Written.Quoted
import ComponentAudit.Proofs.Written.Tag

/-!
# Written calls that create elements

Elements as they are written as calls, `h('va-alert', {status: 'info'}, …)`: a target, an object
literal with props, and further calls or strings as children. A tree says how it is written
(`Call.print`) and how its catalog elements nest (`Call.outline`).

The text of a call is read three times. The arguments are cut out by their closing parenthesis, the
object literal is split at its commas, and the walk through the code passes over all of it again to
find the calls inside. Strings may hold any commas, brackets and escaped quotes, and none of the
three readings is led astray: for each there is a lemma about keys, values and entries, and from
these one about whole calls (`Call.crosses_print`, `readObject?_entries`, `scriptWalk_call`).
-/

namespace ComponentAudit.Written.Calls

/-! ### Targets and entries -/

/-- The first argument of a call. -/
inductive Target where
  /-- A name in single quotes. -/
  | quoted (name : Name)
  | bare (ident : Word Char.isAlpha Char.isAlphanum)

/-- The key of a prop. -/
inductive Key where
  | ident (i : Identifier)
  | quoted (q : Quoted)

/-- The value of a prop. -/
inductive Value where
  | text (q : Quoted)
  | bool (b : Bool)
  | path (p : MemberPath)

/-- An entry of the object literal. -/
inductive Entry where
  | pair (key : Key) (value : Value)
  | spread (p : MemberPath)

/-- The element that a target names. -/
def Target.tag : Target → List Char
  | .quoted name => name.chars
  | .bare ident => ident.chars

/-- The text of a target. -/
def Target.print : Target → List Char
  | .quoted name => '\'' :: (name.chars ++ ['\''])
  | .bare ident => ident.chars

/-- The name of a prop. -/
def Key.name : Key → List Char
  | .ident i => i.chars
  | .quoted q => q.content

/-- The text of a key. -/
def Key.print : Key → List Char
  | .ident i => i.chars
  | .quoted q => q.print

/-- What is known of a value. -/
def Value.value : Value → PropValue
  | .text q => .string (String.ofList q.content)
  | .bool b => .bool b
  | .path p => .reference (String.ofList p.chars)

/-- The text of a value. -/
def Value.print : Value → List Char
  | .text q => q.print
  | .bool true => ['t', 'r', 'u', 'e']
  | .bool false => ['f', 'a', 'l', 's', 'e']
  | .path p => p.chars

/-- What an entry means for the props of its element. -/
def Entry.meaning : Entry → AttrMeaning
  | .pair key value => .prop key.name value.value
  | .spread _ => .spread

/-- The text of an entry. -/
def Entry.print : Entry → List Char
  | .pair key value => key.print ++ ':' :: ' ' :: value.print
  | .spread p => '.' :: '.' :: '.' :: p.chars

/-- The site of a call, if its target is a component name; a quoted one must be in kebab case. -/
def Target.site (marker : List Char) (target : Target) (entries : List Entry) (start : Nat) :
    Option Site :=
  match target with
  | .quoted name =>
    if canonicalName? marker name.chars = some name.chars then
      elementSite marker name.chars (entries.map Entry.meaning) start
    else none
  | .bare ident => elementSite marker ident.chars (entries.map Entry.meaning) start

/-! ### Trees -/

mutual

/-- A call that creates an element. -/
inductive Call where
  | mk (target : Target) (entries : List Entry) (children : Children)

/-- Children that follow one another. Every child comes with the children after it. -/
inductive Children where
  | nil
  | call (c : Call) (next : Children)
  | text (q : Quoted) (next : Children)

end

/-- The text of an object literal. -/
def objectText (entries : List Entry) : List Char :=
  '\x7b' :: (Script.listing (entries.map Entry.print) ++ ['\x7d'])

/-- A call up to its children. -/
def callStart (target : Target) (entries : List Entry) : List Char :=
  'h' :: '(' :: (target.print ++ ',' :: ' ' :: objectText entries)

mutual

/-- The text of a call. -/
def Call.print : Call → List Char
  | .mk target entries children => callStart target entries ++ children.print ++ [')']

/-- The text of children behind other arguments. -/
def Children.print : Children → List Char
  | .nil => []
  | .call c next => ',' :: ' ' :: (c.print ++ next.print)
  | .text q next => ',' :: ' ' :: (q.print ++ next.print)

end

mutual

/-- The outline of the catalog elements of a call that begins at the given place. -/
def Call.outline (marker : List Char) (place : Nat) : Call → Outline
  | .mk target entries children =>
    let body := place + (callStart target entries).length
    .enclose (target.site marker entries place) (body + children.print.length + 1)
      (children.outline marker body)

/-- The outline of the catalog elements of children that begin at the given place. -/
def Children.outline (marker : List Char) (place : Nat) : Children → Outline
  | .nil => .empty
  | .call c next =>
    .join (c.outline marker (place + 2)) (next.outline marker (place + 2 + c.print.length))
  | .text q next => next.outline marker (place + 2 + q.print.length)

end

/-! ### Entries are read -/

section Inert

variable {w : List Char} (h : ∀ c ∈ w, isMemberChar c = true)

include h

private theorem crosses_member : Script.Crosses w :=
  Script.crosses_of_isInert fun c hc => isInert_of_isMemberChar (h c hc)

private theorem staysWhole_member : Script.StaysWhole ',' w :=
  Script.staysWhole_of_isInert (fun c hc => isInert_of_isMemberChar (h c hc))
    fun hmem => absurd (h ',' hmem) (by decide)

end Inert

private theorem isMemberChar_of_mem_ident (i : Identifier) : ∀ c ∈ i.chars, isMemberChar c = true :=
  fun c hc => isMemberChar_of_isIdentifierChar (i.isIdentifierChar_of_mem c hc)

private theorem Key.crosses_print (k : Key) : Script.Crosses k.print := by
  cases k with
  | ident i => exact crosses_member (isMemberChar_of_mem_ident i)
  | quoted q => exact q.crosses

private theorem Key.staysWhole_print (k : Key) : Script.StaysWhole ',' k.print := by
  cases k with
  | ident i => exact staysWhole_member (isMemberChar_of_mem_ident i)
  | quoted q => exact Script.staysWhole_quoted q.isQuote q.literalBody_body

private theorem Value.crosses_print (v : Value) : Script.Crosses v.print := by
  cases v with
  | text q => exact q.crosses
  | bool b => cases b <;> exact crosses_member (List.all_eq_true.1 (by decide))
  | path p => exact p.crosses

private theorem Value.staysWhole_print (v : Value) : Script.StaysWhole ',' v.print := by
  cases v with
  | text q => exact Script.staysWhole_quoted q.isQuote q.literalBody_body
  | bool b => cases b <;> exact staysWhole_member (List.all_eq_true.1 (by decide))
  | path p => exact staysWhole_member p.isMemberChar_of_mem

private theorem Entry.crosses_print (e : Entry) : Script.Crosses e.print := by
  cases e with
  | pair key value =>
    exact key.crosses_print.append (.cons (by decide) (.cons (by decide) value.crosses_print))
  | spread p => exact .cons (by decide) (.cons (by decide) (.cons (by decide) p.crosses))

private theorem Entry.staysWhole_print (e : Entry) : Script.StaysWhole ',' e.print := by
  cases e with
  | pair key value =>
    have hcolon : Script.StaysWhole ',' [':', ' '] :=
      Script.staysWhole_of_isInert (List.all_eq_true.1 (by decide)) (by decide)
    exact key.staysWhole_print.append (hcolon.append value.staysWhole_print)
  | spread p =>
    have hdots : Script.StaysWhole ',' ['.', '.', '.'] :=
      Script.staysWhole_of_isInert (List.all_eq_true.1 (by decide)) (by decide)
    exact hdots.append (staysWhole_member p.isMemberChar_of_mem)

/-- A value is classified as what is known of it. -/
theorem Value.classify_print (v : Value) : Script.classify v.print = some v.value := by
  cases v with
  | text q => exact q.classify_print
  | bool b => cases b <;> decide +kernel
  | path p => exact p.classify_chars

/-- A text with no blank at its ends. -/
def Tight (t : List Char) : Prop :=
  t ≠ [] ∧ (∀ c ∈ t.head?, Text.isBlank c = false) ∧ ∀ c ∈ t.getLast?, Text.isBlank c = false

/-- Nothing is trimmed. -/
theorem Tight.trim {t : List Char} (h : Tight t) : Text.trim t = t := Text.trim_eq_self h.2.1 h.2.2

private theorem Tight.trim_cons_space {t : List Char} (h : Tight t) : Text.trim (' ' :: t) = t := by
  have hstart : Text.trimStart (' ' :: t) = Text.trimStart t := by
    rw [Text.trimStart, List.dropWhile_cons_of_pos (by decide)]
    rfl
  rw [Text.trim, hstart]
  exact h.trim

/-- Two such texts with anything between them. -/
theorem Tight.append {a b : List Char} (ha : Tight a) (m : List Char) (hb : Tight b) :
    Tight (a ++ m ++ b) := by
  obtain ⟨c, a, rfl⟩ := List.exists_cons_of_ne_nil ha.1
  refine ⟨by simp, fun d hd => ha.2.1 d (by simpa using hd), fun d hd => hb.2.2 d ?_⟩
  rw [List.getLast?_append] at hd
  obtain ⟨e, he⟩ : ∃ e, b.getLast? = some e := by
    cases hlast : b.getLast? with
    | none => exact absurd (List.getLast?_eq_none_iff.1 hlast) hb.1
    | some e => exact ⟨e, rfl⟩
  rw [he] at hd ⊢
  exact hd

private theorem tight_member {w : List Char} (hne : w ≠ []) (h : ∀ c ∈ w, isMemberChar c = true) :
    Tight w :=
  ⟨hne, fun c hc => isBlank_of_isMemberChar (h c (List.mem_of_mem_head? hc)),
    fun c hc => isBlank_of_isMemberChar (h c (List.mem_of_mem_getLast? hc))⟩

private theorem Quoted.tight_print (q : Quoted) : Tight q.print := by
  refine ⟨by simp [Quoted.print], fun c hc => ?_, fun c hc => ?_⟩
  · rw [q.head?_print, Option.mem_some_iff] at hc
    exact hc ▸ q.isBlank_quote
  · rw [q.getLast?_print, Option.mem_some_iff] at hc
    exact hc ▸ q.isBlank_quote

private theorem Key.tight_print (k : Key) : Tight k.print := by
  cases k with
  | ident i => exact tight_member (by simp [print, Word.chars]) (isMemberChar_of_mem_ident i)
  | quoted q => exact Quoted.tight_print q

private theorem Value.tight_print (v : Value) : Tight v.print := by
  cases v with
  | text q => exact Quoted.tight_print q
  | bool b => cases b <;> exact tight_member (by decide) (List.all_eq_true.1 (by decide))
  | path p =>
    exact tight_member (by simp [print, MemberPath.chars, Word.chars]) p.isMemberChar_of_mem

private theorem Entry.tight_print (e : Entry) : Tight e.print := by
  cases e with
  | pair key value =>
    simpa [print] using key.tight_print.append [':', ' '] value.tight_print
  | spread p =>
    refine tight_member (by simp [print]) fun c hc => ?_
    rw [print, List.mem_cons, List.mem_cons, List.mem_cons] at hc
    rcases hc with rfl | rfl | rfl | hc
    · decide
    · decide
    · decide
    · exact p.isMemberChar_of_mem c hc

/-- A key is read up to its colon. -/
theorem Key.entryKey?_print (k : Key) (rest : List Char) :
    Script.entryKey? (k.print ++ ':' :: rest) = some (k.name, ':' :: rest) := by
  cases k with
  | ident i =>
    have hmem := i.isIdentChar_of_mem
    have hhead : Script.isIdentChar i.head = true := hmem _ List.mem_cons_self
    have hquote : i.head ≠ '\'' := ne_of_class hhead (by decide)
    have hdouble : i.head ≠ '"' := ne_of_class hhead (by decide)
    have htake : (i.chars ++ ':' :: rest).takeWhile Script.isIdentChar = i.chars :=
      i.takeWhile_chars hmem (by simp [show Script.isIdentChar ':' = false by decide])
    have hdrop : (i.chars ++ ':' :: rest).dropWhile Script.isIdentChar = ':' :: rest := by
      rw [List.dropWhile_append_of_pos hmem]
      simp [show Script.isIdentChar ':' = false by decide]
    rw [Word.chars, List.cons_append] at htake hdrop
    rw [print, name, Word.chars, List.cons_append, Script.entryKey?]
    simp [hquote, hdouble, hhead, htake, hdrop]
  | quoted q =>
    have hor : (decide (q.quote = '\'') || decide (q.quote = '"')) = true := by
      simpa using q.isQuote
    have htake : (q.body ++ q.quote :: ':' :: rest).take (q.body.length + 1) =
        q.body ++ [q.quote] := by
      rw [List.take_length_add_append]
      rfl
    have hdrop : (q.body ++ q.quote :: ':' :: rest).drop (q.body.length + 1) = ':' :: rest := by
      rw [List.drop_length_add_append]
      rfl
    rw [print, name, Quoted.print, List.cons_append, List.append_assoc, List.singleton_append,
      Script.entryKey?, if_pos hor, q.quotedLength_body]
    simp [htake, hdrop, q.unescape_body]

private theorem Value.head?_print_ne (v : Value) : v.print.head? ≠ some '\x7b' := by
  cases v with
  | text q =>
    rw [print, q.head?_print]
    rcases q.isQuote with h | h <;> rw [h] <;> decide
  | bool b => cases b <;> decide
  | path p =>
    intro h
    exact absurd (p.isMemberChar_of_mem _ (List.mem_of_mem_head? h)) (by decide)

/-- The value text of a prop is never a literal of its own. -/
theorem Value.entryValue?_print (v : Value) (key : List Char) :
    Script.entryValue? key v.print = some (.prop (String.ofList key) v.value) := by
  have hopen : Script.enclosed? '\x7b' v.print = none := by
    have hhead := v.head?_print_ne
    cases hprint : v.print with
    | nil => rfl
    | cons c s =>
      have hc : c ≠ '\x7b' := by simpa [hprint] using hhead
      simp [Script.enclosed?, hc]
  rw [Script.entryValue?, hopen, ite_self, v.classify_print]
  rfl

/-- What an entry contributes to its literal. -/
def Entry.contribution : Entry → Script.Entry
  | .pair key value => .prop (String.ofList key.name) value.value
  | .spread _ => .spread

/-- A key begins with neither a dot nor a bracket. -/
theorem Key.head?_print (k : Key) : ∃ c s, k.print = c :: s ∧ c ≠ '.' ∧ c ≠ '[' := by
  cases k with
  | ident i =>
    have hhead : Script.isIdentChar i.head = true := i.isIdentChar_of_mem _ List.mem_cons_self
    exact ⟨i.head, i.tail, rfl, ne_of_class hhead (by decide), ne_of_class hhead (by decide)⟩
  | quoted q =>
    refine ⟨q.quote, q.body ++ [q.quote], rfl, ?_, ?_⟩ <;>
      rcases q.isQuote with h | h <;> rw [h] <;> decide

private theorem Entry.trimmedContribution?_print (e : Entry) :
    Script.trimmedContribution? e.print = some e.contribution := by
  cases e with
  | pair key value =>
    obtain ⟨c, s, hs, hdot, hbracket⟩ := key.head?_print
    have hstarts :
        Text.startsWith ['.', '.', '.'] (key.print ++ ':' :: ' ' :: value.print) = false ∧
          Text.startsWith ['['] (key.print ++ ':' :: ' ' :: value.print) = false := by
      simp [hs, Text.startsWith, Text.stripStart?, hdot.symm, hbracket.symm]
    have htrim : Text.trimStart (':' :: ' ' :: value.print) = ':' :: ' ' :: value.print :=
      Text.trimStart_cons (by decide) _
    rw [print, Script.trimmedContribution?, hstarts.1, hstarts.2, key.entryKey?_print]
    simp only [htrim, value.tight_print.trim_cons_space, value.entryValue?_print]
    rfl
  | spread p =>
    simp [print, Script.trimmedContribution?, Text.startsWith, Text.stripStart?, contribution]

/-- **Entries.** An entry contributes what it means, with a blank before it or not. -/
theorem Entry.contribution?_print (e : Entry) :
    Script.contribution? e.print = some e.contribution ∧
      Script.contribution? (' ' :: e.print) = some e.contribution := by
  rw [Script.contribution?, Script.contribution?, e.tight_print.trim, e.tight_print.trim_cons_space]
  exact ⟨e.trimmedContribution?_print, e.trimmedContribution?_print⟩

private theorem filterMap_contribution (entries : List Entry) :
    (entries.map Entry.contribution).filterMap Script.Entry.prop? =
      (entries.map Entry.meaning).filterMap AttrMeaning.entry? := by
  rw [List.filterMap_map, List.filterMap_map]
  congr 1
  funext e
  cases e <;> rfl

private theorem contains_contribution (entries : List Entry) :
    (entries.map Entry.contribution).contains .spread =
      (entries.map Entry.meaning).contains .spread := by
  rw [List.contains_eq_any_beq, List.contains_eq_any_beq, List.any_map, List.any_map]
  congr 1
  funext e
  cases e <;> rfl

/-- The literal of written entries says what the entries mean. -/
theorem readObject?_entries (entries : List Entry) :
    Script.readObject? (Script.listing (entries.map Entry.print)) =
      some ⟨(entries.map Entry.meaning).filterMap AttrMeaning.entry?,
        (entries.map Entry.meaning).contains .spread⟩ := by
  cases entries with
  | nil =>
    have hnothing : (Script.splitTopLevel ',' []).map Script.contribution? =
      [Script.Entry.nothing].map some := by decide +kernel
    exact Script.readObject?_of_contributions hnothing (by simp [Script.Entry.IsFlat])
  | cons e entries =>
    have hpieces : (Script.splitTopLevel ',' (Script.listing ((e :: entries).map Entry.print))).map
        Script.contribution? = ((e :: entries).map Entry.contribution).map some := by
      rw [List.map_cons, Script.splitTopLevel_listing e.staysWhole_print (by
        simp [Entry.staysWhole_print])]
      simp [Entry.contribution?_print]
    have hflat : ∀ c ∈ (e :: entries).map Entry.contribution, c.IsFlat := by
      simp only [List.mem_map]
      rintro c ⟨e, _, rfl⟩
      cases e <;> trivial
    rw [Script.readObject?_of_contributions hpieces hflat, filterMap_contribution,
      contains_contribution]

/-! ### Brackets close where they are written to -/

private theorem literalBody_name (name : Name) : Script.LiteralBody ['\'', '\n'] name.chars := by
  refine .of_forall fun c hc => ⟨?_, fun hends => ?_⟩
  · rintro rfl
    exact name.not_mem_name (by decide) hc
  · simp only [List.mem_cons, List.not_mem_nil, or_false] at hends
    rcases hends with rfl | rfl <;> exact name.not_mem_name (by decide) hc

private theorem quotedLength_name (name : Name) (rest : List Char) :
    Script.quotedLength '\'' (name.chars ++ '\'' :: rest) = name.chars.length + 1 :=
  (literalBody_name name).quotedLength_append (.inl rfl) rest

private theorem isMemberChar_of_isAlphanum {c : Char} (h : c.isAlphanum = true) :
    isMemberChar c = true :=
  of_ascii (p := fun c => c.isAlphanum = true → isMemberChar c = true) (by decide +kernel)
    (isAlphanum_toNat_lt h) h

private theorem isAlphanum_of_mem (ident : Word Char.isAlpha Char.isAlphanum) :
    ∀ c ∈ ident.chars, c.isAlphanum = true :=
  ident.forall_mem_chars (fun c h => by simp [Char.isAlphanum, h]) fun _ h => h

/-- Letters and digits continue an identifier. -/
theorem isIdentChar_of_mem (ident : Word Char.isAlpha Char.isAlphanum) :
    ∀ c ∈ ident.chars, Script.isIdentChar c = true := by
  intro c hc
  have h := isAlphanum_of_mem ident c hc
  rw [Char.isAlphanum, Bool.or_eq_true] at h
  rcases h with h | h <;> simp [Script.isIdentChar, Script.isIdentStart, h]

private theorem Target.crosses_print (t : Target) : Script.Crosses t.print := by
  cases t with
  | quoted name => exact Script.crosses_quoted (.inl rfl) (literalBody_name name)
  | bare ident =>
    exact crosses_member fun c hc => isMemberChar_of_isAlphanum (isAlphanum_of_mem ident c hc)

private theorem crosses_entries (entries : List Entry) :
    Script.Crosses (Script.listing (entries.map Entry.print)) :=
  Script.crosses_listing (by simp [Entry.crosses_print])

private theorem crosses_objectText (entries : List Entry) : Script.Crosses (objectText entries) :=
  (crosses_entries entries).bracketed rfl

/-- The arguments of a call. -/
def argumentsText (target : Target) (entries : List Entry) (children : Children) : List Char :=
  target.print ++ ',' :: ' ' :: (objectText entries ++ children.print)

private theorem crosses_argumentsText (target : Target) (entries : List Entry) {children : Children}
    (h : Script.Crosses children.print) :
    Script.Crosses (argumentsText target entries children) :=
  target.crosses_print.append
    (.cons (by decide) (.cons (by decide) ((crosses_objectText entries).append h)))

private theorem Call.print_eq (target : Target) (entries : List Entry) (children : Children) :
    (Call.mk target entries children).print =
      'h' :: '(' :: (argumentsText target entries children ++ [')']) := by
  simp [Call.print, callStart, argumentsText]

mutual

/-- The search for a closing bracket gets through a call. -/
theorem Call.crosses_print : ∀ c : Call, Script.Crosses c.print
  | .mk target entries children => by
    have hargs := crosses_argumentsText target entries children.crosses_print
    rw [Call.print_eq]
    exact .cons (by decide) (hargs.bracketed rfl)

private theorem Children.crosses_print : ∀ c : Children, Script.Crosses c.print
  | .nil => .nil
  | .call c next =>
    .cons (by decide) (.cons (by decide) (c.crosses_print.append next.crosses_print))
  | .text q next => .cons (by decide) (.cons (by decide) (q.crosses.append next.crosses_print))

end

/-! ### Sites of calls -/

/-- The object literal of a call is found behind its target. -/
theorem nextObject?_objectText (entries : List Entry) (rest : List Char) :
    nextObject? (',' :: ' ' :: (objectText entries ++ rest)) =
      some (Script.listing (entries.map Entry.print)) := by
  have hclose : Script.closeLength? '\x7b' _ = _ :=
    Script.closeLength?_of_crosses (crosses_entries entries) rfl rest
  have htext : objectText entries ++ rest =
      '\x7b' :: (Script.listing (entries.map Entry.print) ++ '\x7d' :: rest) := by
    simp [objectText]
  have hnext : nextObject? (',' :: ' ' :: '\x7b' ::
      (Script.listing (entries.map Entry.print) ++ '\x7d' :: rest)) =
        Option.map (Script.listing (entries.map Entry.print) ++ '\x7d' :: rest).take
          (Script.closeLength? '\x7b'
            (Script.listing (entries.map Entry.print) ++ '\x7d' :: rest)) := rfl
  rw [htext, hnext, hclose, Option.map_some, List.take_left]

/-- The target of a call is read as its first argument, unless it cannot name a component. -/
theorem calledElement?_print (marker : List Char) (t : Target) {rest : List Char}
    (hrest : rest.takeWhile Script.isIdentChar = []) (entries : List Entry) (start : Nat) :
    (calledElement? marker (t.print ++ rest) = none ∧ t.site marker entries start = none) ∨
      (calledElement? marker (t.print ++ rest) = some (t.tag, rest) ∧
        t.site marker entries start =
          elementSite marker t.tag (entries.map Entry.meaning) start) := by
  cases t with
  | quoted name =>
    have htake : (name.chars ++ '\'' :: rest).take (name.chars.length + 1) =
        name.chars ++ ['\''] := by
      rw [List.take_length_add_append]
      rfl
    have hdrop : (name.chars ++ '\'' :: rest).drop (name.chars.length + 1) = rest := by
      rw [List.drop_length_add_append]
      rfl
    have hskip : Script.skipSpace ('\'' :: (name.chars ++ '\'' :: rest)) =
        '\'' :: (name.chars ++ '\'' :: rest) := rfl
    rw [Target.print, List.cons_append, List.append_assoc, List.singleton_append, calledElement?,
      hskip]
    by_cases hname : canonicalName? marker name.chars = some name.chars
    · exact .inr (by simp [quotedLength_name, htake, hdrop, hname, Target.tag, Target.site])
    · exact .inl (by simp [quotedLength_name, htake, hname, Target.site])
  | bare ident =>
    -- An identifier is taken as it is: whether it names a component is left to `elementSite`.
    have hmem := isIdentChar_of_mem ident
    have hstart : Script.isIdentStart ident.head = true := by
      simp [Script.isIdentStart, ident.head_first]
    have hquote : ident.head ≠ '\'' := ne_of_class hstart (by decide)
    have hdouble : ident.head ≠ '"' := ne_of_class hstart (by decide)
    have hspace : Text.isSpace ident.head = false :=
      isSpace_eq_false_of_isAttrStart (isAttrStart_of_isAlpha ident.head_first)
    have htake := ident.takeWhile_chars hmem hrest
    have hdrop : (ident.chars ++ rest).dropWhile Script.isIdentChar = rest := by
      have hsplit := List.takeWhile_append_dropWhile (p := Script.isIdentChar)
        (l := ident.chars ++ rest)
      rw [htake] at hsplit
      exact List.append_cancel_left hsplit
    rw [Word.chars, List.cons_append] at htake hdrop
    rw [Target.print, Word.chars, List.cons_append, calledElement?, Script.skipSpace,
      List.dropWhile_cons_of_neg (by simp [hspace])]
    refine .inr ⟨?_, rfl⟩
    simp only [hquote, hdouble, hstart, htake, hdrop, decide_false, Bool.or_self,
      Bool.false_eq_true, if_false, if_true]
    rfl

/-- The site of a written call, when the text after the name of the function is read. -/
theorem callSite_argumentsText {settings : ScanSettings} {count start : Nat} {target : Target}
    {entries : List Entry}
    (hcount : count + (target.site settings.marker entries start).toList.length ≤
      settings.maxSites) (place : Nat) (children : Children) (rest : List Char) :
    callSite settings count start place
        ('(' :: (argumentsText target entries children ++ ')' :: rest)) =
      .ok ((target.site settings.marker entries start).map fun s =>
        s.endingAt (place + ((argumentsText target entries children).length + 2))) := by
  have hclose : Script.closeLength? '(' _ = _ := Script.closeLength?_of_crosses
    (crosses_argumentsText target entries children.crosses_print) rfl rest
  have hskip : Script.skipSpace ('(' :: (argumentsText target entries children ++ ')' :: rest)) =
    '(' :: (argumentsText target entries children ++ ')' :: rest) := rfl
  have hspace : Script.spaceLength
    ('(' :: (argumentsText target entries children ++ ')' :: rest)) = 0 := rfl
  have hstop : place + 0 + 1 + (argumentsText target entries children).length + 1 =
      place + ((argumentsText target entries children).length + 2) := by omega
  have hcalled := calledElement?_print settings.marker target
    (show (',' :: ' ' :: (objectText entries ++ children.print)).takeWhile Script.isIdentChar = []
      from rfl) entries start
  rw [← argumentsText] at hcalled
  rw [callSite, hskip]
  simp only [callArguments, hspace, hclose, List.take_left, hstop]
  -- A target that names no component needs no room under the limit.
  rcases hcalled with ⟨hcalled, hsite⟩ | ⟨hcalled, hsite⟩
  · rw [hcalled, hsite]
    rfl
  · rw [hsite] at hcount
    rw [hcalled, hsite]
    cases hname : canonicalName? settings.marker target.tag with
    | none => simp [elementSite, hname]
    | some name =>
      have hlt : ¬ settings.maxSites ≤ count := by
        rw [elementSite, hname, Option.map_some, Option.toList_some,
          List.length_singleton] at hcount
        omega
      simp only [newSite, hlt, if_false, nextObject?_objectText, Site.applyObject?,
        readObject?_entries, elementSite, hname]
      rfl

/-! ### Outlines lie within their text -/

private theorem Target.start_of_site {marker : List Char} {target : Target} {entries : List Entry}
    {start : Nat} : ∀ s ∈ target.site marker entries start, s.start = start := by
  intro s hs
  cases target with
  | quoted name =>
    rw [Target.site] at hs
    split at hs
    · exact start_of_elementSite s hs
    · cases hs
  | bare ident => exact start_of_elementSite s hs

mutual

/-- The components of a call are within its text. -/
theorem Call.within_outline (marker : List Char) :
    ∀ (c : Call) (place : Nat), (c.outline marker place).Within place (place + c.print.length)
  | .mk target entries children, place => by
    have hstart : 0 < (callStart target entries).length := by simp [callStart]
    have hstop : place + (callStart target entries).length + children.print.length + 1 =
        place + (Call.mk target entries children).print.length := by
      simp only [Call.print, List.length_append, List.length_singleton]
      omega
    rw [← hstop]
    exact (children.within_outline marker _).enclose Target.start_of_site
      (Nat.lt_add_of_pos_right hstart) (Nat.le_add_right _ _)

/-- So are those of its children. -/
theorem Children.within_outline (marker : List Char) :
    ∀ (c : Children) (place : Nat), (c.outline marker place).Within place (place + c.print.length)
  | .nil, place => Nat.le_refl _
  | .call c next, place => by
    refine ⟨_, (c.within_outline marker _).mono (Nat.le_add_right _ _) (Nat.le_refl _),
      (next.within_outline marker _).mono (Nat.le_refl _) ?_⟩
    simp only [Children.print, List.length_cons, List.length_append]
    omega
  | .text q next, place => by
    refine (next.within_outline marker _).mono (by omega) ?_
    simp only [Children.print, List.length_cons, List.length_append]
    omega

end

/-! ### The walk over arguments -/

section Walk

variable {s : ScriptScan} {st : ScriptState}

private theorem endsIdent_comma (rest : List Char) : EndsIdent (',' :: rest) :=
  ⟨rfl, show some ',' ≠ some '(' by decide⟩

private theorem endsIdent_brace (rest : List Char) : EndsIdent ('\x7d' :: rest) :=
  ⟨rfl, show some '\x7d' ≠ some '(' by decide⟩

private theorem endsIdent_colon (rest : List Char) : EndsIdent (':' :: rest) :=
  ⟨rfl, show some ':' ≠ some '(' by decide⟩

/-- A string literal is passed over as code. -/
theorem Quoted.passes (q : Quoted) (hst : InCode st) (rest : List Char) :
    Passes s st q.print rest :=
  passes_quoted hst q.isQuote (q.quotedLength_body rest)

/-- So is a key. -/
theorem Key.passes (k : Key) (hst : InCode st) {rest : List Char} (hrest : EndsIdent rest) :
    Passes s st k.print rest := by
  cases k with
  | ident i =>
    exact passes_word hst (isIdentStart_of_isPathStart i.head_first) i.isIdentChar_of_mem hrest
  | quoted q => exact Quoted.passes q hst rest

/-- So is a value. -/
theorem Value.passes (v : Value) (hst : InCode st) {rest : List Char} (hrest : EndsIdent rest) :
    Passes s st v.print rest := by
  cases v with
  | text q => exact Quoted.passes q hst rest
  | bool b => cases b <;> exact passes_word hst (by decide) (List.all_eq_true.1 (by decide)) hrest
  | path p => exact passes_path p hst hrest

/-- So is an entry. -/
theorem Entry.passes (e : Entry) (hst : InCode st) {rest : List Char} (hrest : EndsIdent rest) :
    Passes s st e.print rest := by
  cases e with
  | pair key value =>
    have hcolon : Passes s st [':', ' '] (value.print ++ rest) := passes_plain hst (by decide) _
    exact (key.passes hst (endsIdent_colon _)).append (hcolon.append (value.passes hst hrest))
  | spread p =>
    have hdots : Passes s st ['.', '.', '.'] (p.chars ++ rest) := passes_plain hst (by decide) _
    exact hdots.append (passes_path p hst hrest)

private theorem passes_comma (hst : InCode st) (rest : List Char) : Passes s st [',', ' '] rest :=
  passes_plain hst (by decide) rest

private theorem passes_entries (entries : List Entry) (hst : InCode st) {rest : List Char}
    (hrest : EndsIdent rest) : Passes s st (Script.listing (entries.map Entry.print)) rest := by
  have hmore : ∀ es : List Entry,
      EndsIdent ((es.map Entry.print).flatMap (fun t => ',' :: ' ' :: t) ++ rest) ∧
        Passes s st ((es.map Entry.print).flatMap fun t => ',' :: ' ' :: t) rest := by
    intro es
    induction es with
    | nil => exact ⟨hrest, fun _ _ => rfl⟩
    | cons e es ih =>
      exact ⟨endsIdent_comma _, (passes_comma hst _).append ((e.passes hst ih.1).append ih.2)⟩
  cases entries with
  | nil => exact fun _ _ => rfl
  | cons e entries => exact (e.passes hst (hmore entries).1).append (hmore entries).2

/-- The walk over an object literal goes into its braces and out of them again. -/
theorem passes_objectText (entries : List Entry) (hst : InCode st) (rest : List Char) :
    Passes s st (objectText entries) rest := by
  intro place before
  obtain ⟨braces, found, outer, hframes⟩ := id hst
  have hinner : InCode { st with frames := openBrace st.frames } :=
    ⟨braces + 1, found, outer, by rw [hframes]; rfl⟩
  have hopen : ∀ place before rest, scriptStep s st place before '\x7b' rest =
      .ok (0, { st with frames := openBrace st.frames }) := by
    intro place before rest
    rw [hst.scriptStep, scriptCodeStep, Script.commentLength?_eq_none (by decide),
      Script.regexLength?_eq_none (by decide)]
    simp
  have hclose : ∀ place before rest,
      scriptStep s { st with frames := openBrace st.frames } place before '\x7d' rest =
        .ok (0, st) := by
    intro place before rest
    have hback : closeBrace (openBrace st.frames) = st.frames := by rw [hframes]; rfl
    rw [hinner.scriptStep, scriptCodeStep, Script.commentLength?_eq_none (by decide),
      Script.regexLength?_eq_none (by decide)]
    simp [hback]
  have hentries : Passes s _ _ _ := passes_entries entries hinner (endsIdent_brace rest)
  rw [objectText, List.cons_append, List.append_assoc, List.singleton_append,
    scriptWalk_char (hopen _ _ _), hentries, scriptWalk_char (hclose _ _ _)]
  congr 1
  · simp only [List.length_cons, List.length_append, List.length_nil]
    omega
  · simp

/-- So is the target of a call. -/
theorem Target.passes (t : Target) (hst : InCode st) {rest : List Char} (hrest : EndsIdent rest) :
    Passes s st t.print rest := by
  cases t with
  | quoted name => exact passes_quoted hst (.inl rfl) (quotedLength_name name rest)
  | bare ident =>
    have hstart : Script.isIdentStart ident.head = true := by
      simp [Script.isIdentStart, ident.head_first]
    exact passes_word hst hstart (isIdentChar_of_mem ident) hrest

/-- The step at the name of the function records the site of the call. -/
theorem scriptStep_call (target : Target) (entries : List Entry) (children : Children)
    (rest : List Char) {place : Nat} {before : List Char} (hst : InCode st)
    (hbefore : before.head?.or s.lead ≠ some '.')
    (hcount : st.count + (target.site s.settings.marker entries place).toList.length ≤
      s.settings.maxSites) :
    scriptStep s st place before 'h'
        ('(' :: (argumentsText target entries children ++ ')' :: rest)) =
      .ok (0, recorded st ((target.site s.settings.marker entries place).map fun site =>
        site.endingAt
          (place + (callStart target entries).length + children.print.length + 1)).toList) := by
  have hlength : Script.pathLength
      ('h' :: '(' :: (argumentsText target entries children ++ ')' :: rest)) = 1 := rfl
  have hsite := callSite_argumentsText hcount (place + 1) children rest
  have hstop : place + 1 + ((argumentsText target entries children).length + 2) =
      place + (callStart target entries).length + children.print.length + 1 := by
    simp only [callStart, argumentsText, List.length_cons, List.length_append]
    omega
  have hfactory : elementFactories.contains ['h'] = true := by decide
  rw [hstop] at hsite
  rw [hst.scriptStep, scriptCodeStep_ident (by decide), identStep, hlength]
  simp only [List.take_succ_cons, List.take_zero, List.drop_succ_cons, List.drop_zero, hfactory,
    hbefore, hsite, Bool.not_true, decide_false, Bool.or_self, Bool.false_eq_true, if_false]
  cases target.site s.settings.marker entries place with
  | none => simp [recorded_nil hst.frames_ne_nil]
  | some site => rfl

/-- The walk from the name of the function to the children. -/
theorem scriptWalk_callStart (target : Target) (entries : List Entry) (children : Children)
    (rest : List Char) {place : Nat} {before : List Char} (hst : InCode st)
    (hbefore : before.head?.or s.lead ≠ some '.')
    (hcount : st.count + (target.site s.settings.marker entries place).toList.length ≤
      s.settings.maxSites) :
    scriptWalk s st place before 0
        (callStart target entries ++ (children.print ++ ([')'] ++ rest))) =
      scriptWalk s
        (recorded st ((target.site s.settings.marker entries place).map fun site =>
          site.endingAt
            (place + (callStart target entries).length + children.print.length + 1)).toList)
        (place + (callStart target entries).length) ((callStart target entries).reverse ++ before) 0
        (children.print ++ ([')'] ++ rest)) := by
  have hstep := scriptStep_call target entries children rest hst hbefore hcount
  have htext : '(' :: (argumentsText target entries children ++ ')' :: rest) =
      '(' :: (target.print ++ ([',', ' '] ++ objectText entries)) ++
        (children.print ++ ([')'] ++ rest)) := by simp [argumentsText]
  have hcode := hst.recorded ((target.site s.settings.marker entries place).map fun site =>
    site.endingAt (place + (callStart target entries).length + children.print.length + 1)).toList
  have hargs : Passes s _ (['('] ++ (target.print ++ ([',', ' '] ++ objectText entries)))
      (children.print ++ ([')'] ++ rest)) :=
    .append (passes_plain hcode (by decide) _) (.append (target.passes hcode (endsIdent_comma _))
      (.append (passes_comma hcode _) (passes_objectText entries hcode _)))
  rw [htext] at hstep
  rw [callStart, List.cons_append]
  refine (scriptWalk_char hstep).trans ((hargs _ _).trans ?_)
  congr 1
  · simp only [List.length_append, List.length_cons, List.length_nil]
    omega
  · simp

end Walk

/-! ### The walk over trees -/

mutual

/-- The walk over the text of a call records the sites of its outline. -/
theorem scriptWalk_call {s : ScriptScan} :
    ∀ (c : Call) (st : ScriptState) (place : Nat) (before rest : List Char), InCode st →
      before.head?.or s.lead ≠ some '.' →
      st.count + (c.outline s.settings.marker place).size ≤ s.settings.maxSites →
      scriptWalk s st place before 0 (c.print ++ rest) =
        scriptWalk s (recorded st (c.outline s.settings.marker place).sites.reverse)
          (place + c.print.length) (c.print.reverse ++ before) 0 rest
  | .mk target entries children, st, place, before, rest, hst, hbefore, hcount => by
    rw [Call.outline, Outline.size_enclose] at hcount
    have hown : st.count + (target.site s.settings.marker entries place).toList.length ≤
        s.settings.maxSites := by omega
    have hstart := scriptWalk_callStart target entries children rest hst hbefore hown
    rw [Call.outline, Outline.reverse_sites_enclose]
    -- The site is recorded when the call is read, before the walk goes through its arguments.
    generalize hsites : ((target.site s.settings.marker entries place).map fun site =>
      site.endingAt (place + (callStart target entries).length + children.print.length +
        1)).toList = sites at hstart ⊢
    have hlength : sites.length = (target.site s.settings.marker entries place).toList.length := by
      rw [← hsites, Option.toList_map, List.length_map]
    have hcode := hst.recorded sites
    have hparen : Passes s _ [')'] rest := passes_plain (hcode.recorded
      (children.outline s.settings.marker
        (place + (callStart target entries).length)).sites.reverse) (by decide) rest
    rw [Call.print, List.append_assoc, List.append_assoc, hstart,
      scriptWalk_children children _ _ _ _ hcode, hparen, recorded_recorded _ _ hst.frames_ne_nil]
    · simp only [List.length_append, Nat.add_assoc, List.reverse_append, List.append_assoc]
    · simp only [recorded, hlength]
      omega

/-- The walk over the text of children records the sites of their outline. -/
theorem scriptWalk_children {s : ScriptScan} :
    ∀ (c : Children) (st : ScriptState) (place : Nat) (before rest : List Char), InCode st →
      st.count + (c.outline s.settings.marker place).size ≤ s.settings.maxSites →
      scriptWalk s st place before 0 (c.print ++ rest) =
        scriptWalk s (recorded st (c.outline s.settings.marker place).sites.reverse)
          (place + c.print.length) (c.print.reverse ++ before) 0 rest
  | .nil, st, place, before, rest, hst, _ => by
    rw [Children.outline, Outline.sites, List.reverse_nil, recorded_nil hst.frames_ne_nil]
    rfl
  | .call c next, st, place, before, rest, hst, hcount => by
    rw [Children.outline, Outline.size] at hcount
    have hcomma : scriptWalk s st place before 0 ([',', ' '] ++ (c.print ++ (next.print ++ rest))) =
        scriptWalk s st (place + 2) (' ' :: ',' :: before) 0 (c.print ++ (next.print ++ rest)) :=
      passes_comma hst _ place before
    have htext : (Children.call c next).print ++ rest =
        [',', ' '] ++ (c.print ++ (next.print ++ rest)) := by simp [Children.print]
    rw [htext, hcomma, scriptWalk_call c _ _ _ _ hst (by simp) (by omega),
      scriptWalk_children next _ _ _ _ (hst.recorded _), recorded_recorded _ _ hst.frames_ne_nil]
    · rw [Children.outline, Outline.sites, List.reverse_append]
      congr 1
      · simp only [Children.print, List.length_cons, List.length_append]
        omega
      · simp [Children.print]
    · simp only [recorded, List.length_reverse, Outline.length_sites]
      omega
  | .text q next, st, place, before, rest, hst, hcount => by
    have hcomma : scriptWalk s st place before 0 ([',', ' '] ++ (q.print ++ (next.print ++ rest))) =
        scriptWalk s st (place + 2) (' ' :: ',' :: before) 0 (q.print ++ (next.print ++ rest)) :=
      passes_comma hst _ place before
    have hstring : Passes s st q.print (next.print ++ rest) := Quoted.passes q hst _
    have htext : (Children.text q next).print ++ rest =
        [',', ' '] ++ (q.print ++ (next.print ++ rest)) := by simp [Children.print]
    rw [htext, hcomma, hstring, scriptWalk_children next _ _ _ _ hst hcount]
    rw [Children.outline]
    congr 1
    · simp only [Children.print, List.length_cons, List.length_append]
      omega
    · simp [Children.print]

end

/-! ### Extraction -/

/-- **The scan of a printed call** finds the sites of its outline. -/
theorem scanScript_print {settings : ScanSettings} {c : Call}
    (hsites : (c.outline settings.marker 0).size ≤ settings.maxSites) (levels : Nat) (jsx : Bool) :
    scanScript settings levels jsx 0 (.ofText c.print) =
      .ok (c.outline settings.marker 0).sites.reverse := by
  have hregion : ∀ scan : InnerScan, scanRegion settings jsx scan 0 (.ofText c.print) =
      .ok (c.outline settings.marker 0).sites.reverse := by
    intro scan
    have hwalk := scriptWalk_call (s := ⟨settings, jsx, scan, none⟩) c ⟨[.code 0 []], 0⟩ 0 [] []
      ⟨0, [], [], rfl⟩ (by simp) (by rwa [Nat.zero_add])
    rw [List.append_nil] at hwalk
    rw [scanRegion, Region.ofText, hwalk]
    simp [scriptWalk, recorded, recordSites, Frame.record, closeAll, Frame.close]
  -- A call has no tags, so no scan of inner expressions is asked for.
  cases levels with
  | zero => exact hregion _
  | succ levels => exact hregion _

/-- Extraction from a written call gives the usages of its outline: one for each call whose target
is a component name, in preorder, with the props of its object literal and the nearest such call
around it as its parent. -/
theorem extract_printed_call {options : ExtractOptions} {path : String} {jsx : Bool} (c : Call)
    (hdialect : Dialect.ofPath ⟨path⟩ = .script jsx) (hnul : '\x00' ∉ c.print)
    (hbytes : Text.byteSize c.print ≤ options.maxBytes)
    (hsites : (c.outline options.marker.toList 0).size ≤ options.maxSites) :
    extract options path (String.ofList c.print) =
      .ok ((c.outline options.marker.toList 0).usages c.print path none 0) := by
  have hwithin := c.within_outline options.marker.toList 0
  rw [Nat.zero_add] at hwithin
  refine Outline.extract_eq_usages hwithin hbytes hnul ?_
  rw [hdialect, scanText]
  exact scanScript_print hsites options.maxDepth jsx

/-- A card that holds a text and a button, with brackets and quotes in its strings. -/
def cardWithLabel : Call :=
  .mk (.quoted (.ofAll 'v' "a-card".toList (.refl true)))
    [.pair (.ident (.ofAll 'k' [] (.refl true))) (.text ⟨'\'', .inl rfl, "it's, \x7b(".toList⟩),
      .spread ⟨.ofAll 'p' [] (.refl true), [.ofAll 'q' [] (.refl true)], by decide⟩,
      .pair (.quoted ⟨'"', .inr rfl, "a b".toList⟩) (.bool false)]
    (.text ⟨'\'', .inl rfl, "h(VaX)".toList⟩
      (.call (.mk (.bare (.ofAll 'V' "aButton".toList (.refl true))) [] .nil) .nil))

/-- The text is no call, and the second call has the first as its parent. -/
theorem extract_printed_call_card :
    cardWithLabel.print = ("h('va-card', \x7bk: 'it\\'s, \x7b(', ...p.q, \"a b\": false\x7d, " ++
        "'h(VaX)', h(VaButton, \x7b\x7d))").toList ∧
      extract {} "page.ts" (String.ofList cardWithLabel.print) = .ok [
        { componentName := "va-card", tag := "va-card", filePath := "page.ts", lineNumber := 1
          column := 1, spread := true
          props := .ofList [("k", .string "it's, \x7b("), ("a b", .bool false)] },
        { componentName := "va-button", tag := "VaButton", filePath := "page.ts", lineNumber := 1
          column := 64, parent := some 0 }] :=
  ⟨by decide +kernel, (extract_printed_call cardWithLabel
    (show Dialect.ofPath ⟨"page.ts"⟩ = .script false by decide +kernel) (by decide +kernel)
    (by decide +kernel) (by decide +kernel)).trans (congrArg Except.ok (by decide +kernel))⟩

end ComponentAudit.Written.Calls
