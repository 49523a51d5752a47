import ComponentAudit.Proofs.Script.Bracket
import ComponentAudit.Proofs.Written.Path
import ComponentAudit.Site.Script

/-!
# The walk over pieces of code

What the walk through script code does at the small pieces that written code is made of: at
characters without a meaning, identifiers, strings and braces. None of them adds a site, so each
lemma says that the walk comes out behind the piece in the same state.
-/

namespace ComponentAudit.Written

/-! ### States -/

/-- The state with more sites, latest first, in its innermost frame. -/
def recorded (st : ScriptState) (sites : List Site) : ScriptState :=
  ⟨recordSites sites st.frames, st.count + sites.length⟩

/-- The walk is in code. -/
def InCode (st : ScriptState) : Prop :=
  ∃ braces found outer, st.frames = .code braces found :: outer

/-- The walk is among the children of an element. -/
def InChildren (st : ScriptState) : Prop :=
  ∃ tag site found outer, st.frames = .children tag site found :: outer

section

variable {s : ScriptScan} {st : ScriptState}

theorem InCode.frames_ne_nil (h : InCode st) : st.frames ≠ [] := by
  obtain ⟨_, _, _, h⟩ := h
  simp [h]

theorem InChildren.frames_ne_nil (h : InChildren st) : st.frames ≠ [] := by
  obtain ⟨_, _, _, _, h⟩ := h
  simp [h]

theorem recorded_nil (h : st.frames ≠ []) : recorded st [] = st := by
  obtain ⟨frames, count⟩ := st
  obtain ⟨f, frames, rfl⟩ := List.exists_cons_of_ne_nil h
  cases f <;> rfl

/-- Sites that are recorded one after the other. -/
theorem recorded_recorded (a b : List Site) (h : st.frames ≠ []) :
    recorded (recorded st a) b = recorded st (b ++ a) := by
  obtain ⟨frames, count⟩ := st
  obtain ⟨f, frames, rfl⟩ := List.exists_cons_of_ne_nil h
  cases f <;> simp [recorded, recordSites, Frame.record, Nat.add_assoc, Nat.add_comm a.length]

theorem InCode.recorded (h : InCode st) (sites : List Site) : InCode (recorded st sites) := by
  obtain ⟨braces, found, outer, h⟩ := h
  exact ⟨braces, sites ++ found, outer, by simp [Written.recorded, h, recordSites, Frame.record]⟩

theorem InChildren.recorded (h : InChildren st) (sites : List Site) :
    InChildren (recorded st sites) := by
  obtain ⟨tag, site, found, outer, h⟩ := h
  exact ⟨tag, site, sites ++ found, outer,
    by simp [Written.recorded, h, recordSites, Frame.record]⟩

/-- In code the step is one in code. -/
theorem InCode.scriptStep (h : InCode st) (place : Nat) (before : List Char) (c : Char)
    (rest : List Char) : scriptStep s st place before c rest =
      scriptCodeStep s st place before c rest := by
  obtain ⟨braces, found, outer, h⟩ := h
  rw [ComponentAudit.scriptStep, h]

/-- Among children it is one among children. -/
theorem InChildren.scriptStep (h : InChildren st) (place : Nat) (before : List Char) (c : Char)
    (rest : List Char) : scriptStep s st place before c rest =
      childrenStep s st place c rest := by
  obtain ⟨tag, site, found, outer, h⟩ := h
  rw [ComponentAudit.scriptStep, h]

/-! ### Steps of the walk -/

/-- Characters to be passed over are passed over. -/
theorem scriptWalk_skip (skipped rest : List Char) :
    ∀ (place : Nat) (before : List Char),
      scriptWalk s st place before skipped.length (skipped ++ rest) =
        scriptWalk s st (place + skipped.length) (skipped.reverse ++ before) 0 rest := by
  induction skipped with
  | nil => intro place before; rfl
  | cons c skipped ih =>
    intro place before
    rw [List.length_cons, List.cons_append, scriptWalk, ih, List.reverse_cons, List.append_assoc,
      List.singleton_append, Nat.add_right_comm, Nat.add_assoc]

/-- A step that passes over the rest of a token. -/
theorem scriptWalk_step {st' : ScriptState} {place : Nat} {before : List Char} {c : Char}
    {passed rest : List Char}
    (h : scriptStep s st place before c (passed ++ rest) = .ok (passed.length, st')) :
    scriptWalk s st place before 0 (c :: (passed ++ rest)) =
      scriptWalk s st' (place + (passed.length + 1)) ((c :: passed).reverse ++ before) 0 rest := by
  rw [scriptWalk, h]
  simp only [scriptWalk_skip, List.reverse_cons, List.append_assoc, List.singleton_append,
    Nat.add_assoc, Nat.add_comm 1]

/-- A step that passes over a single character. -/
theorem scriptWalk_char {st' : ScriptState} {place : Nat} {before : List Char} {c : Char}
    {rest : List Char} (h : scriptStep s st place before c rest = .ok (0, st')) :
    scriptWalk s st place before 0 (c :: rest) =
      scriptWalk s st' (place + 1) (c :: before) 0 rest := by
  rw [scriptWalk, h]

/-! ### Pieces of code -/

/-- The walk passes over the text before `rest` and is in the same state behind it. -/
def Passes (s : ScriptScan) (st : ScriptState) (t rest : List Char) : Prop :=
  ∀ (place : Nat) (before : List Char), scriptWalk s st place before 0 (t ++ rest) =
    scriptWalk s st (place + t.length) (t.reverse ++ before) 0 rest

/-- Two texts that are passed over. -/
theorem Passes.append {a b rest : List Char} (ha : Passes s st a (b ++ rest))
    (hb : Passes s st b rest) : Passes s st (a ++ b) rest := by
  intro place before
  rw [List.append_assoc, ha, hb, List.length_append, Nat.add_assoc, List.reverse_append,
    List.append_assoc]

/-- A character of code that starts no token and opens or closes nothing. -/
def isPlainCode (c : Char) : Bool :=
  c ∉ ['/', '\'', '"', '`', '\x7b', '\x7d', '<'] && !Script.isIdentStart c

/-- Plain code is passed over. -/
theorem passes_plain {t : List Char} (hst : InCode st) (h : t.all isPlainCode = true)
    (rest : List Char) : Passes s st t rest := by
  induction t with
  | nil => intro place before; rfl
  | cons c t ih =>
    intro place before
    rw [List.all_cons, Bool.and_eq_true] at h
    obtain ⟨hc, ht⟩ := h
    simp only [isPlainCode, List.mem_cons, List.not_mem_nil, or_false, Bool.and_eq_true,
      Bool.not_eq_true', decide_eq_true_eq, not_or] at hc
    obtain ⟨⟨hslash, hquote, hdouble, htick, hopen, hclose, hlt⟩, hident⟩ := hc
    have hstep : scriptStep s st place before c (t ++ rest) = .ok (0, st) := by
      rw [hst.scriptStep, scriptCodeStep, Script.commentLength?_eq_none hslash,
        Script.regexLength?_eq_none hslash]
      simp [hquote, hdouble, htick, hopen, hclose, hlt, hident]
    rw [List.cons_append, scriptWalk_char hstep, ih ht, List.reverse_cons, List.append_assoc,
      List.singleton_append, List.length_cons, Nat.add_right_comm, Nat.add_assoc]

/-- A closed string is passed over. -/
theorem passes_quoted {quote : Char} {body : List Char} (hst : InCode st)
    (hquote : quote = '\'' ∨ quote = '"') {rest : List Char}
    (h : Script.quotedLength quote (body ++ quote :: rest) = body.length + 1) :
    Passes s st (quote :: (body ++ [quote])) rest := by
  intro place before
  have hor : (decide (quote = '\'') || decide (quote = '"')) = true := by simpa using hquote
  have hslash : quote ≠ '/' := by rcases hquote with rfl | rfl <;> decide
  have hstep : scriptStep s st place before quote (body ++ [quote] ++ rest) =
      .ok ((body ++ [quote]).length, st) := by
    rw [hst.scriptStep, scriptCodeStep, Script.commentLength?_eq_none hslash,
      Script.regexLength?_eq_none hslash]
    simp [hor, h]
  exact scriptWalk_step hstep

/-- The characters that begin an identifier begin nothing else. -/
theorem scriptCodeStep_ident {c : Char} (hc : Script.isIdentStart c = true) (place : Nat)
    (before rest : List Char) :
    scriptCodeStep s st place before c rest = identStep s st place before c rest := by
  have hslash : c ≠ '/' := ne_of_class hc (by decide)
  have hquote : c ≠ '\'' := ne_of_class hc (by decide)
  have hdouble : c ≠ '"' := ne_of_class hc (by decide)
  have htick : c ≠ '`' := ne_of_class hc (by decide)
  have hopen : c ≠ '\x7b' := ne_of_class hc (by decide)
  have hclose : c ≠ '\x7d' := ne_of_class hc (by decide)
  have hlt : c ≠ '<' := ne_of_class hc (by decide)
  rw [scriptCodeStep, Script.commentLength?_eq_none hslash, Script.regexLength?_eq_none hslash]
  simp [hquote, hdouble, htick, hopen, hclose, hlt, hc]

/-- What follows an identifier that is not called: neither more of a path nor an argument list. -/
def EndsIdent (rest : List Char) : Prop :=
  Script.pathLength rest = 0 ∧ (Script.skipSpace rest).head? ≠ some '('

/-- An identifier that is not called is passed over. -/
theorem passes_ident {c : Char} {ident rest : List Char} (hst : InCode st)
    (hc : Script.isIdentStart c = true)
    (hlength : Script.pathLength (c :: ident ++ rest) = (c :: ident).length)
    (hcall : (Script.skipSpace rest).head? ≠ some '(') : Passes s st (c :: ident) rest := by
  intro place before
  refine scriptWalk_step ?_
  have hsite : callSite s.settings st.count place (place + (ident.length + 1)) rest = .ok none := by
    unfold callSite
    split
    · next h => rw [h] at hcall; simp at hcall
    · rfl
  rw [List.cons_append, List.length_cons] at hlength
  rw [hst.scriptStep, scriptCodeStep_ident hc, identStep, hlength]
  simp [hsite]

/-- A word of identifier characters that is not called is passed over. -/
theorem passes_word {c : Char} {w rest : List Char} (hst : InCode st)
    (hc : Script.isIdentStart c = true) (hw : ∀ d ∈ c :: w, Script.isIdentChar d = true)
    (hrest : EndsIdent rest) : Passes s st (c :: w) rest := by
  have hlength := pathLength_ident_append hw rest
  rw [hrest.1, Nat.add_zero] at hlength
  exact passes_ident hst hc hlength hrest.2

/-- A path that is not called is passed over. -/
theorem passes_path (p : MemberPath) {rest : List Char} (hst : InCode st) (hrest : EndsIdent rest) :
    Passes s st p.chars rest := by
  have hpath := p.pathLength_append rest
  obtain ⟨t, ht⟩ := p.chars_eq_cons
  rw [hrest.1, Nat.add_zero] at hpath
  rw [ht] at hpath ⊢
  exact passes_ident hst (isIdentStart_of_isPathStart p.head.head_first) hpath hrest.2

end

/-- The characters of a path are inert. -/
theorem isInert_of_isMemberChar {c : Char} (h : isMemberChar c = true) : Script.isInert c = true :=
  of_ascii (p := fun c => isMemberChar c = true → Script.isInert c = true) (by decide +kernel)
    (isMemberChar_toNat_lt h) h

/-- The search for a closing bracket gets through a path. -/
theorem MemberPath.crosses (p : MemberPath) : Script.Crosses p.chars :=
  Script.crosses_of_isInert fun c hc => isInert_of_isMemberChar (p.isMemberChar_of_mem c hc)

/-- There are no sites in a path. -/
theorem scanScript_path (settings : ScanSettings) (levels : Nat) (jsx : Bool) (p : MemberPath)
    (count start : Nat) (lead : Option Char) :
    scanScript settings levels jsx count ⟨start, lead, p.chars⟩ = .ok [] := by
  have hwalk : ∀ scan : InnerScan,
      scanRegion settings jsx scan count ⟨start, lead, p.chars⟩ = .ok [] := by
    intro scan
    have hcode : InCode ⟨[.code 0 []], count⟩ := ⟨0, [], [], rfl⟩
    have hend : EndsIdent [] := ⟨rfl, by simp [Script.skipSpace]⟩
    have hpath := passes_path (s := ⟨settings, jsx, scan, lead⟩) p hcode hend start []
    rw [List.append_nil] at hpath
    rw [scanRegion, hpath]
    rfl
  cases levels with
  | zero => exact hwalk _
  | succ levels => exact hwalk _

end ComponentAudit.Written
