import ComponentAudit.Proofs.Script.Entry

/-!
# Comments between entries

The splitting of an object literal passes over comments, but leaves them in its pieces. A comment in
front of a key is then the beginning of the entry, and since no key begins with a slash, such an
entry contributes nothing (`CommentedPair.contribution?_print`). So of the entries of a literal
those without a comment in front of their key are left, in their order (`readObject?_commented`).
-/

namespace ComponentAudit.Script

/-! ### Comments -/

/-- A closed comment: a block comment in which nothing but its end closes it, or a line comment with
its line feed. -/
inductive IsComment : List Char → Prop
  | block {body : List Char} : ¬ ['*', '/'] <:+: body →
      IsComment ('/' :: '*' :: (body ++ ['*', '/']))
  | line {body : List Char} : '\n' ∉ body → IsComment ('/' :: '/' :: (body ++ ['\n']))

/-- A comment begins with a slash. -/
theorem IsComment.exists_eq {t : List Char} (h : IsComment t) : ∃ s, t = '/' :: s := by
  cases h with
  | block _ => exact ⟨_, rfl⟩
  | line _ => exact ⟨_, rfl⟩

/-- The splitting passes over a comment, whatever stands in it. -/
theorem IsComment.readsWhole {t : List Char} (h : IsComment t) (rest : List Char) :
    ReadsWhole ',' rest t := by
  cases h with
  | @block body hbody =>
    have hlength := blockCommentLength_append hbody rest
    refine readsWhole_comment (n := body.length + 4) ?_ (by simp)
    simp [commentLength?, hlength]
  | @line body hbody =>
    have hlength := commentLength?_line hbody rest
    have hfeed : ReadsWhole ',' rest ['\n'] :=
      readsWhole_of_isInert (List.all_eq_true.1 (by decide)) (by decide)
    -- The line feed is not part of the comment.
    have hcomment : ReadsWhole ',' ('\n' :: rest) ('/' :: '/' :: body) :=
      readsWhole_comment hlength (by simp)
    exact hcomment.append hfeed

/-! ### Entries with comments in front -/

/-- A comment with the blanks in front of it. -/
structure Comment where
  gap : Gap
  chars : List Char
  isComment : IsComment chars

/-- An entry with comments in front of its key. -/
structure CommentedPair where
  comments : List Comment
  pair : Pair PlainValue

namespace CommentedPair

variable (e : CommentedPair)

/-- The text of an entry with its comments. -/
def print : List Char := e.comments.flatMap (fun c => c.gap.chars ++ c.chars) ++ e.pair.print

/-- The text of an entry from which the comments have been cut out. -/
def bare : List Char := e.comments.flatMap (fun c => c.gap.chars) ++ e.pair.print

/-- An entry with its comments is read as one piece. -/
theorem readsWhole_print (rest : List Char) : ReadsWhole ',' rest e.print := by
  have hcomments : ∀ (comments : List Comment) (rest : List Char),
      ReadsWhole ',' rest (comments.flatMap fun c => c.gap.chars ++ c.chars) := by
    intro comments
    induction comments with
    | nil => exact fun _ => .nil
    | cons c comments ih =>
      intro rest
      exact ((c.gap.readsWhole (by decide) _).append (c.isComment.readsWhole _)).append (ih rest)
  exact (hcomments e.comments _).append (e.pair.readsWhole_print rest)

/-- Without its comments, an entry is an entry with wider blanks in front. -/
theorem exists_bare_eq : ∃ p : Pair PlainValue, e.bare = p.print ∧ p.prop = e.pair.prop := by
  let before : Gap := ⟨e.comments.flatMap (fun c => c.gap.chars) ++ e.pair.before.chars, by
    rw [List.forall_mem_append]
    refine ⟨fun d hd => ?_, e.pair.before.spaces⟩
    obtain ⟨c, -, hd⟩ := List.mem_flatMap.1 hd
    exact c.gap.spaces d hd⟩
  exact ⟨{ e.pair with before }, by simp [bare, Pair.print, Pair.lead, before], rfl⟩

/-- An entry with a comment in front of its key contributes nothing. -/
theorem contribution?_print (h : e.comments ≠ []) : contribution? e.print = some .nothing := by
  obtain ⟨c, comments, hcomments⟩ := List.exists_cons_of_ne_nil h
  obtain ⟨s, hc⟩ := c.isComment.exists_eq
  obtain ⟨t, hprint⟩ : ∃ t, e.print = c.gap.chars ++ '/' :: t :=
    ⟨s ++ comments.flatMap (fun c => c.gap.chars ++ c.chars) ++ e.pair.print, by
      simp [print, hcomments, hc]⟩
  have htrim : Text.trim e.print = '/' :: Text.trimEnd t := by
    rw [hprint, Text.trim, Text.trimStart, List.dropWhile_append_of_pos c.gap.isBlank_of_mem]
    rw [List.dropWhile_cons_of_neg (by decide), Text.trimEnd_cons (by decide)]
  rw [contribution?, htrim]
  simp [trimmedContribution?, Text.startsWith, Text.stripStart?, entryKey?,
    show isIdentChar '/' = false by decide]

/-- The prop that is left of an entry. -/
def prop? : Option (String × PropValue) :=
  if e.comments.isEmpty then some e.pair.prop else none

/-- What an entry with its comments contributes. -/
theorem contribution?_print_eq : contribution? e.print = some (.ofProp? e.prop?) := by
  by_cases h : e.comments = []
  · have hprint : e.print = e.pair.print := by simp [print, h]
    rw [hprint, e.pair.contribution?_print_plain]
    simp [prop?, h]
  · rw [e.contribution?_print h]
    simp [prop?, h, Entry.ofProp?]

end CommentedPair

/-! ### Literals with comments -/

/-- **Comments hide the entries behind them.** Whatever comments stand in front of the keys, a
literal has an answer: the props of the entries without a comment, in their order and without a
spread. The same text without its comments has the props of all entries, so the two agree exactly
if there are no comments. -/
theorem readObject?_commented (entries : List CommentedPair) :
    let commented := [','].intercalate (entries.map CommentedPair.print)
    let bare := [','].intercalate (entries.map CommentedPair.bare)
    readObject? commented =
        some ⟨(entries.filter (·.comments.isEmpty)).map (·.pair.prop), false⟩ ∧
      readObject? bare = some ⟨entries.map (·.pair.prop), false⟩ ∧
      (readObject? commented = readObject? bare ↔ ∀ e ∈ entries, e.comments = []) := by
  intro commented bare
  have hcommented : readObject? commented =
      some ⟨(entries.filter (·.comments.isEmpty)).map (·.pair.prop), false⟩ := by
    have hread : readObject? commented = some ⟨entries.filterMap CommentedPair.prop?, false⟩ :=
      readObject?_intercalate (fun _ e _ _ => e.readsWhole_print _)
        fun e _ => e.contribution?_print_eq
    have hprops : entries.filterMap CommentedPair.prop? =
        (entries.filter (·.comments.isEmpty)).map (·.pair.prop) := by
      rw [← List.filterMap_eq_map, List.filterMap_filter]
      rfl
    rw [hread, hprops]
  have hbare : readObject? bare = some ⟨entries.map (·.pair.prop), false⟩ := by
    refine readObject?_of_props (fun _ e _ _ => ?_) fun e _ => ?_
    · obtain ⟨p, hp, -⟩ := e.exists_bare_eq
      rw [hp]
      exact p.readsWhole_print _
    · obtain ⟨p, hp, hprop⟩ := e.exists_bare_eq
      rw [hp, p.contribution?_print_plain, hprop]
  refine ⟨hcommented, hbare, ?_⟩
  rw [hcommented, hbare, Option.some_inj, ObjectProps.mk.injEq, and_iff_left rfl]
  constructor
  · intro h
    have hlength := congrArg List.length h
    rw [List.length_map, List.length_map, List.length_filter_eq_length_iff] at hlength
    simpa using hlength
  · intro h
    rw [List.filter_eq_self.2 (by simpa using h)]

/-- Two entries, of which the second has a line comment with a quote in it. -/
theorem readObject?_commented_quote :
    let gap : Gap := ⟨[' '], List.all_eq_true.1 rfl⟩
    let tight : Gap := ⟨[], List.all_eq_true.1 rfl⟩
    let on : Pair PlainValue :=
      ⟨tight, .word (.ofAll 'o' ['n'] (by decide)), tight, gap, "true".toList, _, .bool true, tight⟩
    let number : Pair PlainValue :=
      ⟨tight, .quoted '"' ['n'] (.inr rfl) (.of_forall (by simp)), tight, gap, "2".toList, _,
        .number (by decide +kernel), tight⟩
    let note : Comment := ⟨gap, "// it's\n".toList, @IsComment.line " it's".toList (by decide)⟩
    let text := "on: true, // it's\n\"n\": 2".toList
    [','].intercalate ([⟨[], on⟩, ⟨[note], number⟩].map CommentedPair.print) = text ∧
      readObject? text = some ⟨[("on", .bool true)], false⟩ := by
  intro gap tight on number note text
  have htext : [','].intercalate ([⟨[], on⟩, ⟨[note], number⟩].map CommentedPair.print) = text :=
    rfl
  have hread := (readObject?_commented [⟨[], on⟩, ⟨[note], number⟩]).1
  rw [htext] at hread
  exact ⟨htext, hread⟩

/-- A comment in front of the only key leaves no entry. -/
theorem readObject?_of_comment :
    readObject? "/* kind */ status: 'info'".toList = some ⟨[], false⟩ ∧
      readObject? " status: 'info'".toList = some ⟨[("status", .string "info")], false⟩ :=
  ⟨by decide +kernel, by decide +kernel⟩

end ComponentAudit.Script
