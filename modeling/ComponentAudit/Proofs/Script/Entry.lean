import ComponentAudit.Proofs.Script.ObjectLiteral
import ComponentAudit.Proofs.Script.PlainValue

/-!
# Written entries

An entry of an object literal is written as a key, a colon and a value, with blanks around each of
them. The key is an identifier or a quoted string; what may stand as a value is left open, as long
as it is an operand (`IsOperand`).

Such an entry is one prop, of the name of its key and with what its value says
(`Pair.contribution?_print`). What stands in front of the value is read without a cut and leaves
brackets alone, whatever follows, so an entry does both when its value does. Entries that are read
whole, joined by commas, say what they say one by one (`readObject?_intercalate`).
-/

namespace ComponentAudit.Script

open Written (Word)

/-! ### Gaps and keys -/

/-- The blanks between two tokens. -/
structure Gap where
  chars : List Char
  spaces : ∀ c ∈ chars, Text.isSpace c = true

/-- A gap has blanks only. -/
theorem Gap.isBlank_of_mem (g : Gap) : ∀ c ∈ g.chars, Text.isBlank c = true :=
  fun c hc => Text.isBlank_of_isSpace (g.spaces c hc)

/-- They are inert. -/
theorem Gap.isInert_of_mem (g : Gap) : ∀ c ∈ g.chars, isInert c = true :=
  fun c hc => isInert_of_isPlain (isPlain_of_isBlank (g.isBlank_of_mem c hc))

/-- A blank is part of no identifier and no comment. -/
theorem ne_of_isSpace {c : Char} (h : Text.isSpace c = true) :
    isIdentChar c = false ∧ c ≠ '/' ∧ c ≠ '*' := by
  simp only [Text.isSpace, Bool.or_eq_true, decide_eq_true_eq] at h
  rcases h with (((rfl | rfl) | rfl) | rfl) | rfl <;> decide

/-- What holds of blanks and of what stands behind a gap holds of what comes next. -/
theorem Gap.forall_mem_head? (g : Gap) {p : Char → Prop}
    (hspace : ∀ c, Text.isSpace c = true → p c) {s : List Char} (hs : ∀ c ∈ s.head?, p c) :
    ∀ c ∈ (g.chars ++ s).head?, p c := by
  intro c hc
  cases hg : g.chars with
  | nil => exact hs c (by simpa [hg] using hc)
  | cons b t =>
    obtain rfl : b = c := by simpa [hg] using hc
    exact hspace b (g.spaces b (hg ▸ List.mem_cons_self))

/-- A gap has no separator in it. -/
theorem Gap.readsWhole (g : Gap) {sep : Char} (hsep : Text.isBlank sep = false)
    (rest : List Char) : ReadsWhole sep rest g.chars := by
  refine readsWhole_of_isInert g.isInert_of_mem fun hmem => ?_
  rw [g.isBlank_of_mem sep hmem] at hsep
  cases hsep

/-- A character that may begin a key. -/
def isKeyStart (c : Char) : Bool := isIdentStart c && !Text.isBlank c

/-- A character that may continue a key. -/
def isKeyChar (c : Char) : Bool := isIdentChar c && !Text.isBlank c

/-- A key as it is written: an identifier or a quoted string. -/
inductive Key where
  | word (w : Word isKeyStart isKeyChar)
  | quoted (quote : Char) (body : List Char) (isQuote : quote = '\'' ∨ quote = '"')
      (isBody : LiteralBody [quote, '\n'] body)

/-- The text of a key. -/
def Key.chars : Key → List Char
  | .word w => w.chars
  | .quoted quote body _ _ => quote :: (body ++ [quote])

/-- The name that a key stands for. -/
def Key.name : Key → List Char
  | .word w => w.chars
  | .quoted _ body _ _ => unescape body

section

variable {c : Char}

private theorem isKeyChar_of_isKeyStart (h : isKeyStart c = true) : isKeyChar c = true := by
  simp only [isKeyStart, Bool.and_eq_true] at h
  simp [isKeyChar, isIdentChar, h]

theorem isSolid_of_isKeyChar (h : isKeyChar c = true) : isSolid c = true := by
  simp only [isKeyChar, isIdentChar, isIdentStart, Bool.and_eq_true, Bool.or_eq_true,
    Bool.not_eq_true', decide_eq_true_eq] at h
  obtain ⟨(((h | rfl) | rfl) | hwide) | h, hblank⟩ := h
  · exact isSolid_of_isAlphanum (by simp [Char.isAlphanum, h])
  · decide
  · decide
  · exact isSolid_of_wide hwide hblank
  · exact isSolid_of_isAlphanum (by simp [Char.isAlphanum, h])

end

private theorem isKeyChar_of_mem_word (w : Word isKeyStart isKeyChar) :
    ∀ c ∈ w.chars, isKeyChar c = true :=
  w.forall_mem_chars (fun _ => isKeyChar_of_isKeyStart) fun _ h => h

private theorem isSolid_word (w : Word isKeyStart isKeyChar) : IsSolid w.chars :=
  fun c hc => isSolid_of_isKeyChar (isKeyChar_of_mem_word w c hc)

/-- A text in a class of characters is taken up to a character outside of it. -/
theorem takeWhile_append_of_head? {p : Char → Bool} {s rest : List Char}
    (hs : ∀ c ∈ s, p c = true) (hrest : ∀ c ∈ rest.head?, p c = false) :
    (s ++ rest).takeWhile p = s ∧ (s ++ rest).dropWhile p = rest := by
  rw [List.takeWhile_append_of_pos hs, List.dropWhile_append_of_pos hs]
  cases rest with
  | nil => simp
  | cons c rest => simp [hrest c rfl]

/-- A key begins with a quote or with a solid character. -/
theorem Key.exists_chars_eq (k : Key) : ∃ c s, k.chars = c :: s ∧ Text.isBlank c = false ∧
    c ≠ '.' ∧ c ≠ '[' := by
  cases k with
  | word w =>
    have hkey := isKeyChar_of_mem_word w _ List.mem_cons_self
    obtain ⟨hinert, -, -, hblank⟩ := isSolid_iff.1 (isSolid_of_isKeyChar hkey)
    refine ⟨w.head, w.tail, rfl, hblank, ?_, ?_⟩ <;> intro hc <;> rw [hc] at hkey <;>
      revert hkey <;> decide
  | quoted quote body hquote hbody =>
    refine ⟨quote, body ++ [quote], rfl, ?_⟩
    rcases hquote with rfl | rfl <;> decide

/-- A key is read up to where it ends. -/
theorem entryKey?_append (k : Key) {rest : List Char}
    (hrest : ∀ c ∈ rest.head?, isIdentChar c = false) :
    entryKey? (k.chars ++ rest) = some (k.name, rest) := by
  cases k with
  | word w =>
    have hident : ∀ c ∈ w.chars, isIdentChar c = true := fun c hc =>
      (Bool.and_eq_true_iff.1 (isKeyChar_of_mem_word w c hc)).1
    have hhead := hident _ List.mem_cons_self
    have hquote : ¬ (w.head = '\'' ∨ w.head = '"') := by
      rintro (hc | hc) <;> rw [hc] at hhead <;> revert hhead <;> decide
    obtain ⟨htake, hdrop⟩ := takeWhile_append_of_head? hident hrest
    rw [Word.chars, List.cons_append] at htake hdrop
    rw [Key.chars, Key.name, Word.chars, List.cons_append, entryKey?]
    simp [hquote, hhead, htake, hdrop]
  | quoted quote body hquote hbody =>
    have hlength := hbody.quotedLength_append hquote rest
    have htake : (body ++ quote :: rest).take (body.length + 1) = body ++ [quote] := by
      rw [List.append_cons, List.take_left' (by simp)]
    have hdrop : (body ++ quote :: rest).drop (body.length + 1) = rest := by
      rw [List.append_cons, List.drop_left' (by simp)]
    have hor : (decide (quote = '\'') || decide (quote = '"')) = true := by simpa using hquote
    simp only [Key.chars, Key.name, List.cons_append, List.append_assoc, List.nil_append,
      entryKey?, if_pos hor, hlength, htake, hdrop]
    simp

/-- A key is read as one piece. -/
theorem Key.readsWhole (k : Key) (rest : List Char) : ReadsWhole ',' rest k.chars := by
  cases k with
  | word w => exact (isSolid_word w).readsWhole rest
  | quoted quote body hquote hbody => exact readsWhole_quoted hquote hbody

/-- The walk gets through a key. -/
theorem Key.crosses (k : Key) : Crosses k.chars := by
  cases k with
  | word w => exact (isSolid_word w).crosses
  | quoted quote body hquote hbody => exact crosses_quoted hquote hbody

/-! ### Entries -/

/-- What an entry with at most one prop contributes. -/
def Entry.ofProp? : Option (String × PropValue) → Entry
  | some (key, value) => .prop key value
  | none => .nothing

private theorem Entry.isFlat_ofProp? (p : Option (String × PropValue)) :
    (Entry.ofProp? p).IsFlat := by
  cases p <;> exact trivial

private theorem Entry.prop?_ofProp? (p : Option (String × PropValue)) :
    (Entry.ofProp? p).prop? = p := by
  cases p <;> rfl

private theorem Entry.ofProp?_ne_spread (p : Option (String × PropValue)) :
    Entry.ofProp? p ≠ .spread := by
  cases p <;> intro h <;> cases h

/-- An entry `key: value` with what its value says; what values there are is a parameter. -/
structure Pair (IsValue : List Char → PropValue → Prop) where
  before : Gap
  key : Key
  beforeColon : Gap
  afterColon : Gap
  value : List Char
  meaning : PropValue
  isValue : IsValue value meaning
  after : Gap

namespace Pair

variable {IsValue : List Char → PropValue → Prop} (e : Pair IsValue)

/-- The text of an entry up to its value. -/
def lead : List Char :=
  e.before.chars ++ (e.key.chars ++ (e.beforeColon.chars ++ ':' :: e.afterColon.chars))

/-- The text of an entry. -/
def print : List Char := e.lead ++ (e.value ++ e.after.chars)

/-- The prop that an entry is written for. -/
def prop : String × PropValue := (String.ofList e.key.name, e.meaning)

private theorem readsWhole_lead (rest : List Char) : ReadsWhole ',' rest e.lead := by
  have hcomma : Text.isBlank ',' = false := by decide
  have hcolon : ∀ rest, ReadsWhole ',' rest [':'] := fun _ =>
    readsWhole_of_isInert (List.all_eq_true.1 (by decide)) (by decide)
  have hafter : ReadsWhole ',' rest (':' :: e.afterColon.chars) :=
    (hcolon _).append (e.afterColon.readsWhole hcomma rest)
  exact (e.before.readsWhole hcomma _).append
    ((e.key.readsWhole _).append ((e.beforeColon.readsWhole hcomma _).append hafter))

/-- The walk gets through what comes before the value. -/
theorem crosses_lead : Crosses e.lead := by
  have hgap : ∀ g : Gap, Crosses g.chars := fun g => crosses_of_isInert g.isInert_of_mem
  have hafter : Crosses (':' :: e.afterColon.chars) := .cons (by decide) (hgap _)
  exact (hgap _).append (e.key.crosses.append ((hgap _).append hafter))

/-- The nearest token in front of the value is the colon. -/
theorem head?_skipSpace_lead (before : List Char) :
    (skipSpace (e.lead.reverse ++ before)).head? = some ':' := by
  have hgap : ∀ c ∈ e.afterColon.chars.reverse, Text.isSpace c = true := fun c hc =>
    e.afterColon.spaces c (List.mem_reverse.1 hc)
  have hlead : e.lead.reverse ++ before = e.afterColon.chars.reverse ++ ':' ::
      ((e.before.chars ++ (e.key.chars ++ e.beforeColon.chars)).reverse ++ before) := by
    simp [lead]
  rw [hlead, skipSpace, List.dropWhile_append_of_pos hgap, List.dropWhile_cons_of_neg (by decide),
    List.head?_cons]

/-- An entry is read whole in front of a text exactly if its value with the blanks behind it is. -/
theorem readsWhole_print_iff (rest : List Char) :
    ReadsWhole ',' rest e.print ↔ ReadsWhole ',' rest (e.value ++ e.after.chars) :=
  (e.readsWhole_lead _).append_iff

/-- The entry between the blanks around it, from behind its key. -/
def behindKey : List Char := e.beforeColon.chars ++ ':' :: (e.afterColon.chars ++ e.value)

/-- Only the blanks around an entry are trimmed. -/
theorem trim_print (hoperand : IsOperand e.value) :
    Text.trim e.print = e.key.chars ++ e.behindKey := by
  have hprint : e.print = e.before.chars ++ (e.key.chars ++ e.behindKey) ++ e.after.chars := by
    simp [print, lead, behindKey]
  have hlast : (e.key.chars ++ e.behindKey).getLast? = e.value.getLast? := by
    obtain ⟨last, hlast⟩ := Option.ne_none_iff_exists'.1
      (mt List.getLast?_eq_none_iff.1 hoperand.ne_nil)
    simp [behindKey, List.getLast?_append, List.getLast?_cons, hlast]
  obtain ⟨c, s, hkey, hblank, -⟩ := e.key.exists_chars_eq
  rw [hprint, Text.trim_append_blanks e.before.isBlank_of_mem e.after.isBlank_of_mem]
  refine Text.trim_eq_self (fun d hd => ?_) fun d hd => hoperand.last d (hlast ▸ hd)
  obtain rfl : c = d := by simpa [hkey] using hd
  exact hblank

/-- **Keys of entries.** The key of an entry is read, and what comes behind it is left. -/
theorem entryKey?_print : entryKey? (e.key.chars ++ e.behindKey) = some (e.key.name, e.behindKey) :=
  entryKey?_append e.key (e.beforeColon.forall_mem_head? (fun _ h => (ne_of_isSpace h).1)
    fun c hc => by
      obtain rfl : ':' = c := by simpa using hc
      decide)

private theorem trimStart_behindKey :
    Text.trimStart e.behindKey = ':' :: (e.afterColon.chars ++ e.value) := by
  rw [behindKey, Text.trimStart, List.dropWhile_append_of_pos e.beforeColon.isBlank_of_mem]
  exact Text.trimStart_cons (by decide) _

/-- An entry is one prop, with what its value says. -/
theorem contribution?_print (hoperand : IsOperand e.value)
    (hmeaning : classify e.value = some e.meaning) :
    contribution? e.print = some (.ofProp? (some e.prop)) := by
  have hspread : (Text.startsWith ['.', '.', '.'] (e.key.chars ++ e.behindKey) ||
      Text.startsWith ['['] (e.key.chars ++ e.behindKey)) = false := by
    obtain ⟨c, s, hkey, -, hdot, hbracket⟩ := e.key.exists_chars_eq
    simp [hkey, Text.startsWith, Text.stripStart?, hdot.symm, hbracket.symm]
  have hvalue : Text.trim (e.afterColon.chars ++ e.value) = e.value := by
    have htrim := Text.trim_append_blanks e.afterColon.isBlank_of_mem (List.forall_mem_nil _)
      e.value
    rwa [List.append_nil, hoperand.trim_eq] at htrim
  rw [contribution?, e.trim_print hoperand, trimmedContribution?, hspread,
    if_neg Bool.false_ne_true, e.entryKey?_print]
  simp only [e.trimStart_behindKey, entryValue?, hvalue, hoperand.enclosed?_eq_none, ite_self,
    hmeaning, Option.map_some]
  rfl

/-- An entry with a plain value is read whole in front of any text. -/
theorem readsWhole_print (e : Pair PlainValue) (rest : List Char) : ReadsWhole ',' rest e.print :=
  (e.readsWhole_print_iff rest).2
    ((e.isValue.readsWhole _).append (e.after.readsWhole (by decide) rest))

/-- An entry with a plain value contributes its prop. -/
theorem contribution?_print_plain (e : Pair PlainValue) :
    contribution? e.print = some (.ofProp? (some e.prop)) :=
  e.contribution?_print e.isValue.isOperand e.isValue.classify_eq

end Pair

/-! ### Literals -/

/-- Texts that are read whole and hold at most one prop each, joined by commas, say what they say
one by one. -/
theorem readObject?_intercalate {α : Type} {text : α → List Char}
    {prop? : α → Option (String × PropValue)} {es : List α}
    (hwhole : ∀ before e after, es = before ++ e :: after →
      ReadsWhole ',' (following ',' (after.map text)) (text e))
    (hprop : ∀ e ∈ es, contribution? (text e) = some (.ofProp? (prop? e))) :
    readObject? ([','].intercalate (es.map text)) = some ⟨es.filterMap prop?, false⟩ := by
  -- The entries as the reader gives them: props or nothing, and so no spread and no literal.
  let entries := es.map fun e => Entry.ofProp? (prop? e)
  have hflat : ∀ e ∈ entries, e.IsFlat :=
    List.forall_mem_map.2 fun e _ => Entry.isFlat_ofProp? (prop? e)
  have hspread : entries.contains .spread = false := by
    rw [← Bool.not_eq_true, List.contains_iff_mem]
    intro hmem
    obtain ⟨e, -, he⟩ := List.mem_map.1 hmem
    exact Entry.ofProp?_ne_spread (prop? e) he
  have hprops : entries.filterMap Entry.prop? = es.filterMap prop? := by
    rw [List.filterMap_map]
    congr 1
    funext e
    exact Entry.prop?_ofProp? (prop? e)
  cases es with
  | nil =>
    have hempty : readObject? [] = some ⟨[], false⟩ := by decide +kernel
    simpa using hempty
  | cons e es =>
    have hsplit : splitTopLevel ',' ([','].intercalate ((e :: es).map text)) = (e :: es).map text :=
      (splitTopLevel_eq_iff (by decide) text (List.cons_ne_nil e es)).2 hwhole
    have hentries : (splitTopLevel ',' ([','].intercalate ((e :: es).map text))).map contribution? =
        entries.map some := by
      rw [hsplit, List.map_map, List.map_map]
      exact List.map_congr_left hprop
    rw [readObject?_of_contributions hentries hflat, hprops, hspread]

/-- **Object literals.** If every entry is read as one piece and contributes its prop, these are the
props of the object. -/
theorem readObject?_of_props {α : Type} {text : α → List Char} {prop : α → String × PropValue}
    {es : List α} (hwhole : ∀ before e after, es = before ++ e :: after →
      ReadsWhole ',' (following ',' (after.map text)) (text e))
    (hprop : ∀ e ∈ es, contribution? (text e) = some (.ofProp? (some (prop e)))) :
    readObject? ([','].intercalate (es.map text)) = some ⟨es.map prop, false⟩ := by
  rw [readObject?_intercalate hwhole hprop, ← List.filterMap_eq_map]
  rfl

end ComponentAudit.Script
