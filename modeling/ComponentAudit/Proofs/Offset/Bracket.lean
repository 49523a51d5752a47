import ComponentAudit.Proofs.Offset.Token
import ComponentAudit.Proofs.Script.Bracket
import ComponentAudit.Script.Split

/-!
# Brackets by byte offsets

The search for a closing bracket and the cuts at the top level of a text, on bytes. A turn of the
search does what the step at the character does: `closeSearch_step` says that the search then goes
on as from the place after the characters that the step passes over, and `closeOffset?_eq` follows
by induction over the rest of the text.
-/

namespace ComponentAudit.Offset

open Script

variable {text s before : List Char} {n e f : Nat} {c : Char} {contexts : List Context}

/-! ### Turns of the search -/

/-- A turn inside a template literal. -/
def templateTurn (text : List Char) (bound : Nat) (outer : List Context) (i : Nat) :
    Checked (Turn (List Context) (Option Nat)) := do
  let u ← byteAt text i
  if u = '\\' then return .next (.template :: outer) (i + 2)
  else if u = '`' then
    return match outer with
      | [] => .done (some i)
      | _ => .next outer (i + 1)
  else if u = '$' && i + 1 < bound then
    let v ← byteAt text (i + 1)
    return if v = '\x7b' then .next (.code '\x7d' :: .template :: outer) (i + 2)
      else .next (.template :: outer) (i + 1)
  else return .next (.template :: outer) (i + 1)

/-- A turn inside code; `lo` is where the code starts. -/
def codeTurn (text : List Char) (lo bound : Nat) (contexts : List Context) (i : Nat) :
    Checked (Turn (List Context) (Option Nat)) := do
  match ← commentEnd? text i bound with
  | some j => return .next contexts j
  | none =>
    match ← regexEnd? text lo i bound with
    | some j => return .next contexts j
    | none =>
      let u ← byteAt text i
      if u = '\'' || u = '"' then return .next contexts (← stringEnd text i bound)
      else
        return match Context.ofOpener? u with
          | some ctx => .next (ctx :: contexts) (i + 1)
          | none =>
            if isCloser u then
              match closeContext? u contexts with
              | some [] => .done (some i)
              | some outer => .next outer (i + 1)
              | none => .next contexts (i + 1)
            else .next contexts (i + 1)

/-- A turn in the given contexts, innermost first. -/
def bracketTurn (text : List Char) (lo bound : Nat) (contexts : List Context) (i : Nat) :
    Checked (Turn (List Context) (Option Nat)) :=
  match contexts with
  | [] => return .done none
  | .template :: outer => templateTurn text bound outer i
  | .code _ :: _ => codeTurn text lo bound contexts i

/-- The offset of the bracket that closes the outermost context. -/
def closeSearch (text : List Char) (lo bound : Nat) (contexts : List Context) (i : Nat) :
    Checked (Option Nat) :=
  loop bound (bracketTurn text lo bound) (fun _ _ => none) contexts i

/-- The offset of the bracket or backtick that closes the one at `i`. -/
def closeOffset? (text : List Char) (i bound : Nat) : Checked (Option Nat) :=
  match (bytes text)[i]?.bind Context.ofOpener? with
  | none => return none
  | some ctx => closeSearch text (i + 1) bound [ctx] (i + 1)

/-! ### Bytes beyond ASCII -/

private theorem commentEnd?_high {bound i : Nat} {u : Char} (hi : byteAt text i = .ok u)
    (hu : 128 ≤ u.toNat) : commentEnd? text i bound = .ok none := by
  rw [commentEnd?]
  split
  · rfl
  · simp [hi, ne_of_le (x := '/') (by decide) hu]

private theorem regexEnd?_high {lo bound i : Nat} {u : Char} (hi : byteAt text i = .ok u)
    (hu : 128 ≤ u.toNat) : regexEnd? text lo i bound = .ok none := by
  simp [regexEnd?, hi, ne_of_le (x := '/') (by decide) hu]

private theorem ofOpener?_of_le {u : Char} (hu : 128 ≤ u.toNat) : Context.ofOpener? u = none := by
  unfold Context.ofOpener?
  split <;> first | rfl | (revert hu; decide)

private theorem isCloser_of_le {u : Char} (hu : 128 ≤ u.toNat) : isCloser u = false := by
  have hne : ∀ x : Char, x.toNat < 128 → u ≠ x := fun x hx => ne_of_le hx hu
  simp [isCloser, hne]

private theorem lt_of_ofOpener? {u : Char} {ctx : Context} (h : Context.ofOpener? u = some ctx) :
    u.toNat < 128 :=
  Nat.lt_of_not_le fun hu => by simp [ofOpener?_of_le hu] at h

private theorem lt_of_isCloser {u : Char} (h : isCloser u = true) : u.toNat < 128 :=
  Nat.lt_of_not_le fun hu => by simp [isCloser_of_le hu] at h

/-- The search does nothing at bytes beyond ASCII. -/
theorem bracketTurn_high {lo bound : Nat} (hne : contexts ≠ []) (i : Nat) (u : Char)
    (hi : byteAt text i = .ok u) (hu : 128 ≤ u.toNat) :
    bracketTurn text lo bound contexts i = .ok (.next contexts (i + 1)) := by
  have hascii : ∀ x : Char, x.toNat < 128 → u ≠ x := fun x hx => ne_of_le hx hu
  match contexts, hne with
  | .template :: outer, _ => simp [bracketTurn, templateTurn, hi, hascii]
  | .code closer :: outer, _ =>
    simp [bracketTurn, codeTurn, commentEnd?_high hi hu, regexEnd?_high hi hu, hi, hascii,
      ofOpener?_of_le hu, isCloser_of_le hu]

/-! ### Turns at a place -/

private theorem ofOpener?_lead (c : Char) : Context.ofOpener? (lead c) = Context.ofOpener? c := by
  by_cases hc : c.toNat < 128
  · rw [lead_of_lt hc]
  · rw [ofOpener?_of_le (le_lead (Nat.le_of_not_lt hc)), ofOpener?_of_le (Nat.le_of_not_lt hc)]

private theorem asciiOnly_isCloser : AsciiOnly isCloser :=
  asciiOnly_of_false fun _ => isCloser_of_le

/-- A comment is not empty. -/
theorem commentLength?_pos {k : Nat} (h : commentLength? s = some k) : 0 < k := by
  unfold commentLength? at h
  split at h <;> cases h <;> exact Nat.succ_pos _

/-- A regular expression is not empty. -/
theorem regexLength?_pos {k : Nat} (h : regexLength? before s = some k) : 0 < k := by
  unfold regexLength? at h
  grind

/-- A step that goes on leaves something open. -/
theorem bracketStep_ne_nil {skip : Nat} {contexts' : List Context} (hne : contexts ≠ [])
    (h : bracketStep contexts before c s = .next skip contexts') : contexts' ≠ [] := by
  unfold bracketStep templateStep codeStep at h
  grind

section Turns

variable {outer : List Context}

/-- The search goes on from the byte after a character as from the next place. -/
theorem closeSearch_succ {lo : Nat} (hne : contexts ≠ []) (h : Span text n e (c :: s)) :
    closeSearch text lo (offset text e) contexts (offset text n + 1) =
      closeSearch text lo (offset text e) contexts (offset text (n + 1)) :=
  h.loop_succ fun _ => bracketTurn_high hne

private theorem closeSearch_next {lo j : Nat} {contexts' : List Context}
    (h : Span text n e (c :: s))
    (hstep : bracketTurn text lo (offset text e) contexts (offset text n) = .ok (.next contexts' j))
    (hj : offset text n < j) :
    closeSearch text lo (offset text e) contexts (offset text n) =
      closeSearch text lo (offset text e) contexts' j :=
  loop_next (offset_lt_iff.2 h.lt) hstep hj

/-- A turn inside a template literal does what the step at the character does. -/
theorem closeSearch_template {lo : Nat} (h : Span text n e (c :: s)) :
    closeSearch text lo (offset text e) (.template :: outer) (offset text n) =
      match templateStep outer c s with
      | .found => .ok (some (offset text n))
      | .next skip contexts =>
        closeSearch text lo (offset text e) contexts (offset text (n + 1 + skip)) := by
  have hread := h.byteAt_lead
  by_cases hescape : c = '\\'
  · subst hescape
    have hsucc := h.offset_succ_of_lt (by decide)
    have hturn : bracketTurn text lo (offset text e) (.template :: outer) (offset text n) =
        .ok (.next (.template :: outer) (offset text n + 2)) := by
      simp [bracketTurn, templateTurn, hread, lead_eq_iff]
    -- The jump of two bytes may land inside the escaped character, or behind the end.
    rw [closeSearch_next h hturn (by omega),
      show offset text n + 2 = offset text (n + 1) + 1 by omega]
    simp only [templateStep, if_true]
    cases s with
    | nil =>
      obtain rfl : e = n + 1 := h.stop_eq
      rw [closeSearch, closeSearch, loop_finish (Nat.le_succ _), loop_finish]
      simp
    | cons d s => exact closeSearch_succ (by simp) h.tail
  · by_cases htick : c = '`'
    · subst htick
      cases outer with
      | nil =>
        refine loop_done (offset_lt_iff.2 h.lt) ?_
        simp [bracketTurn, templateTurn, hread, lead_eq_iff]
      | cons ctx outer =>
        have hturn : bracketTurn text lo (offset text e) (.template :: ctx :: outer)
            (offset text n) = .ok (.next (ctx :: outer) (offset text n + 1)) := by
          simp [bracketTurn, templateTurn, hread, lead_eq_iff]
        rw [closeSearch_next h hturn (Nat.lt_succ_self _), h.offset_succ_of_lt (by decide)]
        rfl
    -- Only a dollar sign with a brace behind it opens code; every other character is passed over.
    · have hturn : bracketTurn text lo (offset text e) (.template :: outer) (offset text n) =
          .ok (if c = '$' ∧ s.head? = some '\x7b'
            then .next (.code '\x7d' :: .template :: outer) (offset text n + 2)
            else .next (.template :: outer) (offset text n + 1)) := by
        by_cases hdollar : c = '$'
        · subst hdollar
          have hsucc := h.offset_succ_of_lt (by decide)
          cases s with
          | nil =>
            obtain rfl : e = n + 1 := h.stop_eq
            simp [bracketTurn, templateTurn, hread, lead_eq_iff, hsucc]
          | cons d s =>
            have hlt : offset text (n + 1) < offset text e := offset_lt_iff.2 h.tail.lt
            simp [bracketTurn, templateTurn, hread, lead_eq_iff, hsucc, h.tail.byteAt_lead,
              h.tail.lt]
        · simp [bracketTurn, templateTurn, hread, lead_eq_iff, hescape, htick, hdollar]
      by_cases hopen : c = '$' ∧ s.head? = some '\x7b'
      · obtain ⟨rfl, hhead⟩ := hopen
        obtain ⟨s, rfl⟩ : ∃ t, s = '\x7b' :: t := by
          cases s <;> simp_all
        have hsucc := h.offset_succ_of_lt (by decide)
        have hsucc' := h.tail.offset_succ_of_lt (by decide)
        have hstep : templateStep outer '$' ('\x7b' :: s) =
            .next 1 (.code '\x7d' :: .template :: outer) := by
          simp [templateStep]
        rw [if_pos ⟨rfl, rfl⟩] at hturn
        rw [closeSearch_next h hturn (by omega), hstep]
        simp only [← hsucc', ← hsucc]
      · rw [if_neg hopen] at hturn
        rw [closeSearch_next h hturn (Nat.lt_succ_self _), closeSearch_succ (by simp) h]
        have hstep : templateStep outer c s = .next 0 (.template :: outer) := by
          simp [templateStep, hescape, htick, hopen]
        rw [hstep]

/-- A turn inside code does what the step at the character does. -/
theorem closeSearch_code {closer : Char} (hbefore : Span text f n before.reverse)
    (h : Span text n e (c :: s)) :
    closeSearch text (offset text f) (offset text e) (.code closer :: outer) (offset text n) =
      match codeStep (.code closer :: outer) before c s with
      | .found => .ok (some (offset text n))
      | .next skip contexts => closeSearch text (offset text f) (offset text e) contexts
          (offset text (n + 1 + skip)) := by
  have hcomment := commentEnd?_eq h
  have hregex := regexEnd?_eq hbefore h
  cases hc : commentLength? (c :: s) with
  -- A comment is passed over whole, and so are a regular expression and a string below. Brackets
  -- are left to the characters that begin none of them.
  | some k =>
    have hpos := commentLength?_pos hc
    have hturn : bracketTurn text (offset text f) (offset text e) (.code closer :: outer)
        (offset text n) = .ok (.next (.code closer :: outer) (offset text (n + k))) := by
      simp [bracketTurn, codeTurn, hcomment, hc]
    rw [closeSearch_next h hturn (offset_lt_iff.2 (by omega)), codeStep, hc]
    simp only [show n + 1 + (k - 1) = n + k by omega]
  | none =>
    cases hr : regexLength? before (c :: s) with
    | some k =>
      have hpos := regexLength?_pos hr
      have hturn : bracketTurn text (offset text f) (offset text e) (.code closer :: outer)
          (offset text n) = .ok (.next (.code closer :: outer) (offset text (n + k))) := by
        simp [bracketTurn, codeTurn, hcomment, hc, hregex, hr]
      rw [closeSearch_next h hturn (offset_lt_iff.2 (by omega)), codeStep, hc, hr]
      simp only [show n + 1 + (k - 1) = n + k by omega]
    | none =>
      rw [codeStep, hc, hr]
      by_cases hquote : c = '\'' ∨ c = '"'
      · have hturn : bracketTurn text (offset text f) (offset text e) (.code closer :: outer)
            (offset text n) =
              .ok (.next (.code closer :: outer) (offset text (n + 1 + quotedLength c s))) := by
          simp [bracketTurn, codeTurn, hcomment, hc, hregex, hr, h.byteAt_lead, lead_eq_iff, hquote,
            stringEnd_eq h hquote]
        rw [closeSearch_next h hturn (offset_lt_iff.2 (by omega))]
        simp [hquote]
      · have hturn : bracketTurn text (offset text f) (offset text e) (.code closer :: outer)
            (offset text n) = .ok (match Context.ofOpener? c with
              | some ctx => .next (ctx :: .code closer :: outer) (offset text n + 1)
              | none =>
                if isCloser c then
                  match closeContext? (lead c) (.code closer :: outer) with
                  | some [] => .done (some (offset text n))
                  | some outer => .next outer (offset text n + 1)
                  | none => .next (.code closer :: outer) (offset text n + 1)
                else .next (.code closer :: outer) (offset text n + 1)) := by
          simp [bracketTurn, codeTurn, hcomment, hc, hregex, hr, h.byteAt_lead, lead_eq_iff, hquote,
            ofOpener?_lead, asciiOnly_isCloser.lead]
        -- Whatever happens to the contexts, such a turn goes on by one byte.
        have hgo : ∀ {contexts : List Context}, contexts ≠ [] →
            bracketTurn text (offset text f) (offset text e) (.code closer :: outer)
              (offset text n) = .ok (.next contexts (offset text n + 1)) →
            closeSearch text (offset text f) (offset text e) (.code closer :: outer)
                (offset text n) =
              closeSearch text (offset text f) (offset text e) contexts (offset text (n + 1)) :=
          fun hne hturn => by
            rw [closeSearch_next h hturn (Nat.lt_succ_self _), closeSearch_succ hne h]
        simp only [Bool.or_eq_true, decide_eq_true_eq, hquote, if_false]
        cases ho : Context.ofOpener? c with
        | some ctx =>
          rw [ho] at hturn
          exact hgo (by simp) hturn
        | none =>
          by_cases hcloser : isCloser c = true
          · rw [ho, if_pos hcloser, lead_of_lt (lt_of_isCloser hcloser)] at hturn
            simp only [hcloser, if_true]
            cases hclose : closeContext? c (.code closer :: outer) with
            | none =>
              rw [hclose] at hturn
              exact hgo (by simp) hturn
            | some contexts =>
              rw [hclose] at hturn
              cases contexts with
              | nil => exact loop_done (offset_lt_iff.2 h.lt) hturn
              | cons ctx contexts => exact hgo (by simp) hturn
          · rw [ho, if_neg hcloser] at hturn
            simp only [hcloser]
            exact hgo (by simp) hturn

end Turns

/-! ### The whole search -/

private theorem closeWalk?_drop (contexts : List Context) (before : List Char) (skip : Nat)
    (s : List Char) : closeWalk? contexts before skip s =
      closeWalk? contexts ((s.take skip).reverse ++ before) 0 (s.drop skip) := by
  induction s generalizing before skip with
  | nil => cases skip <;> simp [closeWalk?]
  | cons c s ih =>
    cases skip with
    | zero => rfl
    | succ skip => simp [closeWalk?, ih]

/-- A turn of the search does what the step at the character does. -/
theorem closeSearch_step (hne : contexts ≠ []) (hbefore : Span text f n before.reverse)
    (h : Span text n e (c :: s)) :
    closeSearch text (offset text f) (offset text e) contexts (offset text n) =
      match bracketStep contexts before c s with
      | .found => .ok (some (offset text n))
      | .next skip contexts => closeSearch text (offset text f) (offset text e) contexts
          (offset text (n + 1 + skip)) := by
  match contexts, hne with
  | .template :: outer, _ => exact closeSearch_template h
  | .code closer :: outer, _ => exact closeSearch_code hbefore h

/-- **Search for a closing bracket.** The search on the bytes of a region agrees with the walk on
its characters, for any stack of open contexts. -/
theorem closeSearch_eq (hne : contexts ≠ []) (hbefore : Span text f n before.reverse)
    (h : Span text n e s) :
    closeSearch text (offset text f) (offset text e) contexts (offset text n) =
      .ok ((closeWalk? contexts before 0 s).map fun k => offset text (f + k)) := by
  induction hlen : s.length using Nat.strongRecOn generalizing n s before contexts with
  | _ len ih =>
    cases s with
    | nil =>
      obtain rfl : e = n := h.stop_eq
      exact loop_finish (Nat.le_refl _)
    | cons c s =>
      have hn : n = f + before.length := by simpa using hbefore.stop_eq
      rw [closeSearch_step hne hbefore h, closeWalk?]
      cases hstep : bracketStep contexts before c s with
      | found => rw [hn]; rfl
      | next skip contexts' =>
        have hne' := bracketStep_ne_nil hne hstep
        simp only [closeWalk?_drop contexts' (c :: before) skip s]
        by_cases hskip : skip ≤ s.length
        · have hpassed :
              Span text f (n + 1 + skip) ((s.take skip).reverse ++ c :: before).reverse := by
            have := (hbefore.join h.head).join (h.tail.take hskip)
            simpa using this
          refine ih _ ?_ hne' hpassed (h.tail.drop hskip) rfl
          rw [← hlen, List.length_drop, List.length_cons]
          omega
        · -- The step passes over more than there is.
          rw [List.drop_eq_nil_of_le (by omega), closeSearch, loop_finish, closeWalk?]
          · rfl
          · rw [offset_le_iff, h.stop_eq, List.length_cons]
            omega

/-- The closing bracket is found at the place that the search by characters gives. -/
theorem closeOffset?_eq (h : Span text n e (c :: s)) :
    closeOffset? text (offset text n) (offset text e) =
      .ok ((closeLength? c s).map fun k => offset text (n + 1 + k)) := by
  have hread : (bytes text)[offset text n]? = some (lead c) := by
    have := h.byteAt_lead
    unfold byteAt at this
    split at this <;> simp_all
  rw [closeOffset?, hread, Option.bind_some, ofOpener?_lead, closeLength?]
  cases ho : Context.ofOpener? c with
  | none => rfl
  | some ctx =>
    have hempty : Span text (n + 1) (n + 1) ([] : List Char).reverse := by
      simpa using h.tail.take (Nat.zero_le _)
    simp only [h.offset_succ_of_lt (lt_of_ofOpener? ho)]
    exact closeSearch_eq (by simp) hempty h.tail

private theorem lt_of_closer {ctx : Context} (h : Context.ofOpener? c = some ctx) :
    ctx.closer.toNat < 128 := by
  unfold Context.ofOpener? at h
  split at h <;> cases h <;> decide

/-- An opening bracket and its closer are ASCII characters. -/
theorem exists_closer_of_closeLength? {k : Nat} (h : closeLength? c s = some k) :
    c.toNat < 128 ∧ ∃ d t, s.drop k = d :: t ∧ d.toNat < 128 := by
  obtain ⟨ctx, hctx, hcloser⟩ := closeLength?_sound h
  obtain ⟨hlt, hget⟩ := List.getElem?_eq_some_iff.1 hcloser
  exact ⟨lt_of_ofOpener? hctx, ctx.closer, s.drop (k + 1),
    by rw [List.drop_eq_getElem_cons hlt, hget], lt_of_closer hctx⟩

/-- A closing bracket is one byte long, so the places before and behind it are neighbours. -/
theorem Span.offset_closer (h : Span text n e (c :: s)) {k : Nat}
    (hk : closeLength? c s = some k) :
    k < s.length ∧ offset text (n + 1 + k) + 1 = offset text (n + 1 + (k + 1)) := by
  obtain ⟨-, d, t, hdrop, hd⟩ := exists_closer_of_closeLength? hk
  have hlt : k < s.length := Nat.lt_of_not_le fun hle => by
    rw [List.drop_eq_nil_of_le hle] at hdrop
    cases hdrop
  have hspan := h.tail.drop (Nat.le_of_lt hlt)
  rw [hdrop] at hspan
  exact ⟨hlt, hspan.offset_succ_of_lt hd⟩

/-! ### Splitting at the top level -/

/-- A turn of the split: where the current piece starts, and the pieces before it. -/
def splitTurn (text : List Char) (sep : Char) (bound : Nat) (st : Nat × List (List Char))
    (i : Nat) : Checked (Turn (Nat × List (List Char)) (Nat × List (List Char))) := do
  match ← commentEnd? text i bound with
  | some j => return .next st j
  | none =>
    let u ← byteAt text i
    if u = '\'' || u = '"' then return .next st (← stringEnd text i bound)
    else if (Context.ofOpener? u).isSome then
      return .next st (((← closeOffset? text i bound).map (· + 1)).getD bound)
    else if u = sep then
      let piece ← slice text st.1 i
      return .next (i + 1, st.2 ++ [piece]) (i + 1)
    else return .next st (i + 1)

/-- The pieces of the text, when those before `i` are given. -/
def splitFrom (text : List Char) (sep : Char) (st : Nat × List (List Char)) (i : Nat) :
    Checked (List (List Char)) := do
  let bound := Text.byteSize text
  let (start, pieces) ← loop bound (splitTurn text sep bound) (fun st _ => st) st i
  let last ← slice text start bound
  return pieces ++ [last]

/-- The pieces of the text between the separators at its top level. -/
def splitTopLevel (text : List Char) (sep : Char) : Checked (List (List Char)) :=
  splitFrom text sep (0, []) 0

private theorem splitTurn_high {sep : Char} (hsep : sep.toNat < 128) {bound : Nat}
    {st : Nat × List (List Char)} (i : Nat) (u : Char) (hi : byteAt text i = .ok u)
    (hu : 128 ≤ u.toNat) : splitTurn text sep bound st i = .ok (.next st (i + 1)) := by
  have hascii : ∀ x : Char, x.toNat < 128 → u ≠ x := fun x hx => ne_of_le hx hu
  simp [splitTurn, commentEnd?_high hi hu, hi, hascii, hsep, ofOpener?_of_le hu]

private theorem splitWalk_drop (sep : Char) (piece : List Char) (skip : Nat) (s : List Char) :
    splitWalk sep piece skip s =
      splitWalk sep ((s.take skip).reverse ++ piece) 0 (s.drop skip) := by
  induction s generalizing piece skip with
  | nil => cases skip <;> simp [splitWalk]
  | cons c s ih =>
    cases skip with
    | zero => rfl
    | succ skip => simp [splitWalk, ih]

/-- What starts a token at the top level is passed over by its length. -/
theorem splitTurn_token {sep : Char} {st : Nat × List (List Char)} (h : Span text n e (c :: s))
    (ho : opensToken c s = true) :
    splitTurn text sep (offset text e) st (offset text n) =
      .ok (.next st (offset text (n + 1 + topLevelSkip c s))) := by
  have hcomment := commentEnd?_eq h
  rw [topLevelSkip]
  cases hc : commentLength? (c :: s) with
  | some k =>
    have hpos := commentLength?_pos hc
    have hplace : n + 1 + (k - 1) = n + k := by omega
    simp [splitTurn, hcomment, hc, hplace]
  | none =>
    by_cases hquote : c = '\'' ∨ c = '"'
    · simp [splitTurn, hcomment, hc, h.byteAt_lead, lead_eq_iff, hquote, stringEnd_eq h hquote]
    · have hopener : (Context.ofOpener? c).isSome = true := by
        simpa [opensToken, hc, hquote] using ho
      have hend : e = n + 1 + s.length := by
        rw [h.stop_eq, List.length_cons]
        omega
      have hturn : splitTurn text sep (offset text e) st (offset text n) =
          .ok (.next st (((closeLength? c s).map fun k =>
            offset text (n + 1 + k) + 1).getD (offset text e))) := by
        simp [splitTurn, hcomment, hc, h.byteAt_lead, lead_eq_iff, hquote, ofOpener?_lead, hopener,
          closeOffset?_eq h, Function.comp_def]
      rw [hturn]
      cases hk : closeLength? c s with
      | none => simp [hquote, hopener, hend]
      | some k => simp [hquote, hopener, (h.offset_closer hk).2]

/-- At any other character the piece is cut, if it is the separator, or goes on. -/
theorem splitTurn_plain {sep : Char} (hsep : sep.toNat < 128) {piece : List Char}
    {pieces : List (List Char)} (hpiece : Span text f n piece.reverse)
    (h : Span text n e (c :: s)) (ho : ¬ opensToken c s = true) :
    splitTurn text sep (offset text e) (offset text f, pieces) (offset text n) =
      .ok (if c = sep then
        .next (offset text (n + 1), pieces ++ [piece.reverse]) (offset text (n + 1))
      else .next (offset text f, pieces) (offset text n + 1)) := by
  obtain ⟨hcomment, hquote, hdouble, hopener⟩ : commentLength? (c :: s) = none ∧ c ≠ '\'' ∧
      c ≠ '"' ∧ Context.ofOpener? c = none := by
    simpa [opensToken, and_assoc] using ho
  by_cases hc : c = sep
  · subst hc
    simp [splitTurn, commentEnd?_eq h, hcomment, h.byteAt_lead, lead_eq_iff, hquote, hdouble,
      ofOpener?_lead, hopener, hsep, hpiece.slice_eq, h.offset_succ_of_lt hsep]
  · simp [splitTurn, commentEnd?_eq h, hcomment, h.byteAt_lead, lead_eq_iff, hquote, hdouble,
      ofOpener?_lead, hopener, hsep, hc]

/-- What is passed over in one step is there. -/
theorem topLevelSkip_le (c : Char) (s : List Char) : topLevelSkip c s ≤ s.length := by
  rw [topLevelSkip]
  split
  · next k hk =>
    have := commentLength?_le hk
    rw [List.length_cons] at this
    omega
  · split
    · exact quotedLength_le c s
    · split
      · split
        · next k hk =>
          have := (Span.whole (c :: s)).offset_closer hk
          omega
        · exact Nat.le_refl _
      · exact Nat.zero_le _

/-- What the split comes to when a turn goes on in the given state. -/
theorem splitFrom_next {sep : Char} {st st' : Nat × List (List Char)} {j : Nat}
    (h : Span text n text.length (c :: s))
    (hturn : splitTurn text sep (offset text text.length) st (offset text n) = .ok (.next st' j))
    (hj : offset text n < j) :
    splitFrom text sep st (offset text n) = splitFrom text sep st' j := by
  rw [offset_length] at hturn
  have hlt : offset text n < Text.byteSize text := by
    rw [← offset_length, offset_lt_iff]
    exact h.lt
  simp only [splitFrom, loop_next hlt hturn hj]

private theorem splitFrom_succ {sep : Char} (hsep : sep.toNat < 128) {st : Nat × List (List Char)}
    (h : Span text n text.length (c :: s)) :
    splitFrom text sep st (offset text n + 1) = splitFrom text sep st (offset text (n + 1)) := by
  simp only [splitFrom]
  rw [← offset_length, h.loop_succ fun _ => splitTurn_high hsep]

/-- The split by offsets gives the pieces of the split by characters. -/
theorem splitFrom_eq {sep : Char} (hsep : sep.toNat < 128) {piece : List Char}
    {pieces : List (List Char)} (hpiece : Span text f n piece.reverse)
    (h : Span text n text.length s) :
    splitFrom text sep (offset text f, pieces) (offset text n) =
      .ok (pieces ++ splitWalk sep piece 0 s) := by
  -- On the length of what is left, since comments, strings and nested code are passed over whole.
  -- The characters of the piece so far are always those between `f` and `n`.
  induction hlen : s.length using Nat.strongRecOn generalizing f n s piece pieces with
  | _ len ih =>
    cases s with
    | nil =>
      obtain rfl : text.length = n := h.stop_eq
      rw [splitFrom, ← offset_length, loop_finish (Nat.le_refl _)]
      simp [hpiece.slice_eq, splitWalk]
    | cons c s =>
      rw [splitWalk]
      have hpassed : Span text f (n + 1) (c :: piece).reverse := by
        simpa using hpiece.join h.head
      by_cases ho : opensToken c s = true
      · have hskip := topLevelSkip_le c s
        have hpiece' : Span text f (n + 1 + topLevelSkip c s)
            ((s.take (topLevelSkip c s)).reverse ++ c :: piece).reverse := by
          simpa using hpassed.join (h.tail.take hskip)
        rw [if_pos ho, splitFrom_next h (splitTurn_token h ho) (offset_lt_iff.2 (by omega)),
          splitWalk_drop]
        refine ih _ ?_ hpiece' (h.tail.drop hskip) rfl
        rw [← hlen, List.length_drop, List.length_cons]
        omega
      · have hturn := @splitTurn_plain text s n _ f c sep hsep piece pieces hpiece h ho
        rw [if_neg ho]
        split at hturn
        · next hc =>
          subst hc
          have hempty : Span text (n + 1) (n + 1) ([] : List Char).reverse := by
            simpa using h.tail.take (Nat.zero_le _)
          rw [splitFrom_next h hturn (offset_lt_succ text n), if_pos rfl,
            ih _ (by simp [← hlen]) hempty h.tail rfl, List.append_assoc, List.singleton_append]
        · next hc =>
          rw [splitFrom_next h hturn (Nat.lt_succ_self _), splitFrom_succ hsep h, if_neg hc,
            ih _ (by simp [← hlen]) hpassed h.tail rfl]

/-- **Splitting at a separator.** The bytes of a text are split into the same pieces as its
characters. -/
theorem splitTopLevel_eq {sep : Char} (hsep : sep.toNat < 128) (text : List Char) :
    splitTopLevel text sep = .ok (Script.splitTopLevel sep text) := by
  have hempty : Span text 0 0 ([] : List Char).reverse := by
    simpa using (Span.whole text).take (Nat.zero_le _)
  have hsplit := @splitFrom_eq text text 0 0 sep hsep [] [] hempty (Span.whole text)
  rwa [offset_zero] at hsplit

end ComponentAudit.Offset
