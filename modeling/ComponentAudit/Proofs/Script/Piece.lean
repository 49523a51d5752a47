import ComponentAudit.Proofs.Script.Code

/-!
# Where a text is cut

The splitting reads a text token by token: a comment, a string or a bracketed text is passed over,
and between the tokens every separator is a cut. `ReadsWhole` says that it reads a text in front of
another one without a cut and comes out exactly at its end.

Texts that are joined by the separator are the pieces again exactly if each of them is read whole in
front of those behind it (`splitTopLevel_eq_iff`). A token that begins in one text and ends in
another takes the separator between them along, and that is all that can go wrong besides a
separator outside of every token.
-/

namespace ComponentAudit.Script

/-- The splitting reads the text in front of `rest` token by token: no token reaches into `rest`,
and no character between the tokens is the separator. -/
inductive ReadsWhole (sep : Char) (rest : List Char) : List Char → Prop
  | nil : ReadsWhole sep rest []
  | token {c : Char} {passed t : List Char} :
      opensToken c (passed ++ (t ++ rest)) = true →
      topLevelSkip c (passed ++ (t ++ rest)) = passed.length → ReadsWhole sep rest t →
      ReadsWhole sep rest (c :: (passed ++ t))
  | char {c : Char} {t : List Char} : opensToken c (t ++ rest) = false → c ≠ sep →
      ReadsWhole sep rest t → ReadsWhole sep rest (c :: t)

/-- Texts with the separator in front of each. -/
def following (sep : Char) (ts : List (List Char)) : List Char := ts.flatMap (sep :: ·)

/-- A separated list is its first text and what follows it. -/
theorem intercalate_cons (sep : Char) (t : List Char) (ts : List (List Char)) :
    [sep].intercalate (t :: ts) = t ++ following sep ts := by
  induction ts generalizing t with
  | nil => simp [following]
  | cons u ts ih =>
    rw [List.intercalate_cons_cons, ih]
    simp [following]

/-- What follows begins with a separator or not at all. -/
theorem forall_mem_head?_following {sep : Char} {p : Char → Prop} (hsep : p sep) {rest : List Char}
    (hrest : ∀ c ∈ rest.head?, p c) (ts : List (List Char)) :
    ∀ c ∈ (following sep ts ++ rest).head?, p c := by
  cases ts with
  | nil => exact hrest
  | cons t ts =>
    intro c hc
    obtain rfl : sep = c := by simpa [following] using hc
    exact hsep

/-! ### Reading on -/

section

variable {sep c : Char} {rest a b t : List Char}

/-- Two texts that are read as one piece. -/
theorem ReadsWhole.append (ha : ReadsWhole sep (b ++ rest) a) (hb : ReadsWhole sep rest b) :
    ReadsWhole sep rest (a ++ b) := by
  induction ha with
  | nil => exact hb
  | token hopens hskip _ ih =>
    rw [List.cons_append, List.append_assoc]
    exact .token (by simpa using hopens) (by simpa using hskip) ih
  | char hopens hne _ ih => exact .char (by simpa using hopens) hne ih

/-- What follows a token of the text is read whole when the text is. -/
theorem ReadsWhole.of_token (hopens : opensToken c (a ++ (b ++ rest)) = true)
    (hskip : topLevelSkip c (a ++ (b ++ rest)) = a.length)
    (h : ReadsWhole sep rest (c :: (a ++ b))) : ReadsWhole sep rest b := by
  generalize htext : c :: (a ++ b) = text at h
  cases h with
  | nil => cases htext
  | @token c' passed t _ hskip' ht =>
    obtain ⟨rfl, htail⟩ := List.cons.inj htext
    rw [← List.append_assoc, ← htail, List.append_assoc, hskip] at hskip'
    obtain ⟨-, rfl⟩ := List.append_inj htail hskip'
    exact ht
  | char hplain _ _ =>
    obtain ⟨rfl, rfl⟩ := List.cons.inj htext
    rw [List.append_assoc, hopens] at hplain
    cases hplain

/-- What follows a character that opens nothing is read whole when the text is. -/
theorem ReadsWhole.of_char (hopens : opensToken c (t ++ rest) = false)
    (h : ReadsWhole sep rest (c :: t)) : ReadsWhole sep rest t := by
  generalize htext : c :: t = text at h
  cases h with
  | nil => cases htext
  | token htoken _ _ =>
    obtain ⟨rfl, rfl⟩ := List.cons.inj htext
    rw [List.append_assoc, htoken] at hopens
    cases hopens
  | char _ _ ht =>
    obtain ⟨-, rfl⟩ := List.cons.inj htext
    exact ht

/-- Behind a part that is read whole, the text is read whole exactly if the other part is. -/
theorem ReadsWhole.append_iff (ha : ReadsWhole sep (b ++ rest) a) :
    ReadsWhole sep rest (a ++ b) ↔ ReadsWhole sep rest b := by
  refine ⟨fun h => ?_, ha.append⟩
  induction ha with
  | nil => exact h
  | token hopens hskip _ ih =>
    rw [List.cons_append, List.append_assoc] at h
    exact ih (.of_token (by simpa using hopens) (by simpa using hskip) h)
  | char hopens _ _ ih => exact ih (.of_char (by simpa using hopens) h)

/-! ### Texts that are read whole whatever follows -/

/-- An inert character begins no token. -/
theorem opensToken_eq_false {c : Char} (h : isInert c = true) (rest : List Char) :
    opensToken c rest = false := by
  simp only [isInert, Bool.and_eq_true, decide_eq_true_eq, Bool.not_eq_true',
    Option.isNone_iff_eq_none] at h
  obtain ⟨⟨⟨⟨hslash, hquote⟩, hdouble⟩, hopener⟩, _⟩ := h
  simp [opensToken, commentLength?_eq_none hslash, hquote, hdouble, hopener]

/-- Inert characters without the separator are read as one piece. -/
theorem readsWhole_of_isInert (h : ∀ c ∈ t, isInert c = true) (hsep : sep ∉ t) :
    ReadsWhole sep rest t := by
  induction t with
  | nil => exact .nil
  | cons c t ih =>
    obtain ⟨hc, ht⟩ := List.forall_mem_cons.1 h
    obtain ⟨hne, hmem⟩ := List.ne_and_not_mem_of_not_mem_cons hsep
    exact .char (opensToken_eq_false hc _) hne.symm (ih ht hmem)

/-- So is a string literal. -/
theorem readsWhole_quoted {quote : Char} {body : List Char} (hquote : quote = '\'' ∨ quote = '"')
    (h : LiteralBody [quote, '\n'] body) : ReadsWhole sep rest (quote :: (body ++ [quote])) := by
  have hor : (decide (quote = '\'') || decide (quote = '"')) = true := by simpa using hquote
  have hslash : quote ≠ '/' := by rcases hquote with rfl | rfl <;> decide
  have hopens : ∀ s, opensToken quote s = true := by
    intro s
    rcases hquote with rfl | rfl <;> simp [opensToken]
  have hskip : topLevelSkip quote (body ++ [quote] ++ ([] ++ rest)) = (body ++ [quote]).length := by
    rw [topLevelSkip, commentLength?_eq_none hslash]
    simp [hor, h.quotedLength_append hquote rest]
  simpa using ReadsWhole.token (hopens _) hskip .nil

/-- So is what is in brackets. -/
theorem readsWhole_bracketed {opener closer : Char}
    (h : Context.ofOpener? opener = some (.code closer)) (ht : Crosses t) :
    ReadsWhole sep rest (opener :: (t ++ [closer])) := by
  obtain ⟨hslash, hquote, hdouble⟩ := ne_of_ofOpener? h
  have hopens : ∀ s, opensToken opener s = true := fun s => by simp [opensToken, h]
  have hclose := closeLength?_of_crosses ht h rest
  have hskip : topLevelSkip opener (t ++ [closer] ++ ([] ++ rest)) = (t ++ [closer]).length := by
    rw [topLevelSkip, commentLength?_eq_none hslash]
    simp [hquote, hdouble, h, hclose]
  simpa using ReadsWhole.token (hopens _) hskip .nil

/-- A text that is a comment together with whatever follows. -/
theorem readsWhole_comment {n : Nat}
    (h : commentLength? (c :: (t ++ rest)) = some n) (hn : n = t.length + 1) :
    ReadsWhole sep rest (c :: t) := by
  have hopens : opensToken c (t ++ ([] ++ rest)) = true := by simp [opensToken, h]
  have hskip : topLevelSkip c (t ++ ([] ++ rest)) = t.length := by
    rw [topLevelSkip, List.nil_append, h, hn]
    rfl
  simpa using ReadsWhole.token hopens hskip .nil

/-! ### Cuts -/

private theorem splitWalk_skip (skipped rest : List Char) :
    ∀ piece : List Char, splitWalk sep piece skipped.length (skipped ++ rest) =
      splitWalk sep (skipped.reverse ++ piece) 0 rest := by
  induction skipped with
  | nil => intro piece; rfl
  | cons c skipped ih =>
    intro piece
    rw [List.length_cons, List.cons_append, splitWalk, ih, List.reverse_cons, List.append_assoc,
      List.singleton_append]

/-- The splitting goes through a text that is read whole without a cut. -/
theorem ReadsWhole.splitWalk_eq (h : ReadsWhole sep rest t) (piece : List Char) :
    splitWalk sep piece 0 (t ++ rest) = splitWalk sep (t.reverse ++ piece) 0 rest := by
  induction h generalizing piece with
  | nil => rfl
  | @token c passed t hopens hskip _ ih =>
    rw [List.cons_append, List.append_assoc, splitWalk, hopens, if_pos rfl, hskip, splitWalk_skip,
      ih]
    simp
  | char hopens hne _ ih =>
    rw [List.cons_append, splitWalk, hopens, if_neg Bool.false_ne_true, if_neg hne, ih]
    simp

/-- What is passed over in one step is there. -/
theorem topLevelSkip_le (c : Char) (s : List Char) : topLevelSkip c s ≤ s.length := by
  rw [topLevelSkip]
  split
  · next hcomment =>
    have hle := Offset.commentLength?_le hcomment
    simp only [List.length_cons] at hle
    omega
  · split
    · exact Offset.quotedLength_le c s
    · split
      · split
        · next n hclose =>
          obtain ⟨ctx, -, hcloser⟩ := closeLength?_sound hclose
          exact (List.getElem?_eq_some_iff.1 hcloser).1
        · exact Nat.le_refl _
      · exact Nat.zero_le _

/-- The first piece takes in what is to be passed over. -/
theorem length_le_of_head?_splitWalk {skip : Nat} {s piece p : List Char}
    (h : (splitWalk sep piece skip s).head? = some p) :
    piece.length + min skip s.length ≤ p.length := by
  induction s generalizing piece skip with
  | nil =>
    have hp : piece.reverse = p := by cases skip <;> simpa [splitWalk] using h
    simp [← hp]
  | cons c s ih =>
    cases skip with
    | succ skip =>
      have hle := ih h
      simp only [List.length_cons] at hle ⊢
      omega
    | zero =>
      rw [splitWalk] at h
      split at h
      · have hle := ih h
        simp only [List.length_cons] at hle
        omega
      · split at h
        · cases h
          simp
        · have hle := ih h
          simp only [List.length_cons] at hle
          omega

/-- A text that is the first piece has been read whole. -/
theorem readsWhole_of_head?_splitWalk {piece : List Char}
    (h : (splitWalk sep piece 0 (t ++ rest)).head? = some (piece.reverse ++ t)) :
    ReadsWhole sep rest t := by
  -- The walk goes on behind a whole token at a time, so the induction is on the length.
  induction hn : t.length using Nat.strongRecOn generalizing t piece with
  | ind n ih =>
  cases t with
  | nil => exact .nil
  | cons c t =>
    rw [List.length_cons] at hn
    rw [List.cons_append, splitWalk] at h
    split at h
    · next hopens =>
      -- A token that reaches beyond the text would make the piece longer.
      have hle : topLevelSkip c (t ++ rest) ≤ t.length := by
        have hlength := length_le_of_head?_splitWalk h
        have hskip := topLevelSkip_le c (t ++ rest)
        rw [Nat.min_eq_left hskip] at hlength
        simp only [List.length_cons, List.length_append, List.length_reverse] at hlength
        omega
      obtain ⟨passed, t', rfl, hpassed⟩ : ∃ passed t', t = passed ++ t' ∧
          topLevelSkip c (t ++ rest) = passed.length :=
        ⟨_, _, (List.take_append_drop _ t).symm, by rw [List.length_take, Nat.min_eq_left hle]⟩
      have hshorter : t'.length < n := by
        rw [← hn, List.length_append]
        omega
      rw [List.append_assoc] at h hopens hpassed
      rw [hpassed, splitWalk_skip] at h
      have ht' := @ih _ hshorter t' (passed.reverse ++ c :: piece) (by simpa using h) rfl
      exact .token hopens hpassed ht'
    · next hopens =>
      split at h
      · next hsep =>
        have hlength := congrArg (Option.map List.length) h
        simp at hlength
      · next hsep =>
        have hshorter : t.length < n := by omega
        have ht := @ih _ hshorter t (c :: piece) (by simpa using h) rfl
        exact .char (by simpa using hopens) hsep ht

end

/-- Texts joined by the separator are the pieces again exactly if each is read whole in front of
those behind it. -/
theorem splitTopLevel_eq_iff {sep : Char} (hsep : isInert sep = true) {α : Type}
    (text : α → List Char) {es : List α} (hne : es ≠ []) :
    splitTopLevel sep ([sep].intercalate (es.map text)) = es.map text ↔
      ∀ before e after, es = before ++ e :: after →
        ReadsWhole sep (following sep (after.map text)) (text e) := by
  obtain ⟨e, es, rfl⟩ := List.exists_cons_of_ne_nil hne
  rw [List.map_cons, intercalate_cons, splitTopLevel]
  clear hne
  induction es generalizing e with
  | nil =>
    constructor
    · rintro h before d after hsplit
      obtain ⟨rfl, rfl, rfl⟩ : before = [] ∧ d = e ∧ after = [] := by
        simpa [eq_comm, List.append_eq_singleton_iff] using hsplit
      exact readsWhole_of_head?_splitWalk (by rw [h]; rfl)
    · intro h
      rw [(h [] e [] rfl).splitWalk_eq]
      simp [following, splitWalk]
  | cons d es ih =>
    -- Once the first piece is read whole, the split of the others is left.
    have hcut : ReadsWhole sep (following sep ((d :: es).map text)) (text e) →
        splitWalk sep [] 0 (text e ++ following sep ((d :: es).map text)) =
          text e :: splitWalk sep [] 0 (text d ++ following sep (es.map text)) := by
      intro he
      have hfollowing : following sep ((d :: es).map text) =
          sep :: (text d ++ following sep (es.map text)) := rfl
      rw [he.splitWalk_eq, hfollowing, splitWalk, opensToken_eq_false hsep,
        if_neg Bool.false_ne_true, if_pos rfl]
      simp
    constructor
    · intro h before b after hsplit
      have he : ReadsWhole sep (following sep ((d :: es).map text)) (text e) :=
        readsWhole_of_head?_splitWalk (by rw [h]; rfl)
      rw [hcut he] at h
      cases before with
      | nil =>
        obtain ⟨rfl, rfl⟩ := List.cons.inj hsplit
        exact he
      | cons c before => exact (ih d).1 (List.cons.inj h).2 before b after (List.cons.inj hsplit).2
    · intro h
      rw [hcut (h [] e _ rfl), (ih d).2 fun before b after hsplit =>
        h (e :: before) b after (by rw [hsplit]; rfl), List.map_cons]

end ComponentAudit.Script
