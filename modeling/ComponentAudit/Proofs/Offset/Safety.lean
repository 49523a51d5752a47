import ComponentAudit.Proofs.Invocation.Failure
import ComponentAudit.Proofs.Offset.Extraction
import ComponentAudit.Proofs.Offset.Literal

/-!
# Accesses that fail

The run on byte offsets checks every read and every cut, and it comes to the answers of the scan by
characters. So the only access that fails is the one that the scan knows of: taking the quotes off a
literal that ends inside a character.

Such a literal is a part of the text, so a text without wide characters has none. That is followed
through the readers of tags and calls: whatever reports a split character has been given one that is
*wide*. The rest of the scan fails only where they do (`ReadersFailOn.scanText`).
-/

namespace ComponentAudit

/-- A character beyond ASCII stands in the text. -/
def Wide (s : List Char) : Prop := ∃ c ∈ s, 128 ≤ c.toNat

/-- A text that contains a wide text is wide. -/
theorem Wide.mono {s t : List Char} (h : Wide s) (hst : s ⊆ t) : Wide t := by
  obtain ⟨c, hc, hwide⟩ := h
  exact ⟨c, hst hc, hwide⟩

/-! ### Expressions -/

namespace Text

private theorem trimStart_subset (s : List Char) : trimStart s ⊆ s :=
  (List.dropWhile_sublist _).subset

private theorem trimEnd_subset (s : List Char) : trimEnd s ⊆ s := by
  intro c hc
  exact List.mem_reverse.1 ((List.dropWhile_sublist _).subset (List.mem_reverse.1 hc))

private theorem trim_subset (s : List Char) : trim s ⊆ s :=
  List.Subset.trans (trimEnd_subset _) (trimStart_subset s)

end Text

namespace Script

private theorem skipSpace_subset (s : List Char) : skipSpace s ⊆ s :=
  (List.dropWhile_sublist _).subset

private theorem enclosed?_subset {opener : Char} {e inner : List Char}
    (h : enclosed? opener e = some inner) : inner ⊆ e := by
  cases e with
  | nil => cases h
  | cons c s =>
    rw [enclosed?] at h
    split at h
    · cases h
      exact List.Subset.trans (List.dropLast_subset s) (List.subset_cons_self c s)
    · cases h

private theorem unwrap_subset (e : List Char) : unwrap e ⊆ e := by
  fun_induction unwrap e with
  | case1 e inner h ih =>
    have hinner := List.Subset.trans (Text.trim_subset inner) (enclosed?_subset h)
    exact List.Subset.trans ih hinner
  | case2 e h => exact List.Subset.refl e

private theorem stripSuffix_subset (ending e : List Char) : stripSuffix ending e ⊆ e := by
  rw [stripSuffix]
  split
  · next s hs =>
    rw [Text.stripEnd?_eq_some_iff.1 hs]
    exact List.Subset.trans (Text.trimEnd_subset s) (List.subset_append_left s ending)
  · exact List.Subset.refl e

private theorem bareExpression_subset (e : List Char) : bareExpression e ⊆ e :=
  List.Subset.trans (stripSuffix_subset _ _) <| List.Subset.trans (stripSuffix_subset _ _) <|
    List.Subset.trans (unwrap_subset _) (Text.trim_subset e)

/-- Only a wide expression has a literal cut inside a character. -/
theorem wide_of_classify {e : List Char} (h : classify e = none) : Wide e := by
  obtain ⟨quote, rest, last, he, -, -, hsize⟩ :=
    (Offset.readString_eq_unreadable_iff _).1 ((Offset.classifyBare_eq_none_iff _).1 h)
  have hlast : last ∈ bareExpression e := by simp [he]
  refine ⟨last, bareExpression_subset e hlast, Nat.le_of_not_lt fun hlt => ?_⟩
  exact hsize (Offset.utf8Size_of_lt hlt)

/-! ### Object literals -/

private theorem subset_of_mem_splitWalk {sep : Char} {text : List Char} :
    ∀ {piece : List Char} {skip : Nat}, ∀ p ∈ splitWalk sep piece skip text,
      p ⊆ piece ++ text := by
  induction text with
  | nil =>
    intro piece skip p hp
    obtain rfl : p = piece.reverse := by cases skip <;> simpa [splitWalk] using hp
    simp
  | cons c rest ih =>
    intro piece skip p hp
    have hnext : ∀ skip, p ∈ splitWalk sep (c :: piece) skip rest → p ⊆ piece ++ c :: rest := by
      intro skip hp d hd
      have hmem := ih p hp hd
      simp only [List.mem_append, List.mem_cons] at hmem ⊢
      grind
    cases skip with
    | succ n => exact hnext n hp
    | zero =>
      rw [splitWalk] at hp
      split at hp
      · exact hnext _ hp
      · split at hp
        · rcases List.mem_cons.1 hp with rfl | hp
          · simp
          · have hsub := ih p hp
            exact List.Subset.trans hsub (by simp)
        · exact hnext 0 hp

private theorem subset_of_mem_splitTopLevel {sep : Char} {text p : List Char}
    (h : p ∈ splitTopLevel sep text) : p ⊆ text := by
  simpa using subset_of_mem_splitWalk p h

private theorem entryKey?_subset {e key rest : List Char} (h : entryKey? e = some (key, rest)) :
    rest ⊆ e := by
  cases e with
  | nil => cases h
  | cons c s =>
    rw [entryKey?] at h
    split at h
    · dsimp only at h
      split at h
      · cases h
        exact List.Subset.trans (List.drop_subset _ s) (List.subset_cons_self c s)
      · cases h
    · split at h
      · cases h
        exact (List.dropWhile_sublist _).subset
      · cases h

/-- An entry contributes no literal, unless it has a value that decides. -/
theorem contribution?_cases (e : List Char) :
    (∃ entry, contribution? e = some entry ∧ ∀ body, entry ≠ .nested body) ∨
      ∃ key value, value ⊆ e ∧ contribution? e = entryValue? key value := by
  rw [contribution?, trimmedContribution?]
  split
  · exact .inl ⟨.spread, rfl, by simp⟩
  · split
    · exact .inl ⟨.nothing, rfl, by simp⟩
    · next key rest hkey =>
      split
      · exact .inl ⟨_, rfl, by simp⟩
      · next value hvalue =>
        refine .inr ⟨key, Text.trim value, ?_, rfl⟩
        have hrest : value ⊆ rest := by
          intro c hc
          exact Text.trimStart_subset rest (hvalue ▸ List.mem_cons_of_mem ':' hc)
        exact List.Subset.trans (Text.trim_subset value) <| List.Subset.trans hrest <|
          List.Subset.trans (entryKey?_subset hkey) (Text.trim_subset e)
      · exact .inl ⟨_, rfl, by simp⟩

private theorem wide_of_contribution? {e : List Char} (h : contribution? e = none) : Wide e := by
  rcases contribution?_cases e with ⟨entry, hentry, -⟩ | ⟨key, value, hvalue, heq⟩
  · rw [hentry] at h
    cases h
  · rw [heq, entryValue?] at h
    split at h
    · cases h
    · exact (wide_of_classify (Option.map_eq_none_iff.1 h)).mono hvalue

private theorem subset_of_contribution? {e inner : List Char}
    (h : contribution? e = some (.nested inner)) : inner ⊆ e := by
  rcases contribution?_cases e with ⟨entry, hentry, hne⟩ | ⟨key, value, hvalue, heq⟩
  · rw [hentry] at h
    exact absurd (Option.some.inj h) (hne inner)
  · rw [heq, entryValue?] at h
    split at h
    · next body hbody =>
      cases h
      split at hbody
      · exact List.Subset.trans (enclosed?_subset hbody) hvalue
      · cases hbody
    · obtain ⟨v, -, hv⟩ := Option.map_eq_some_iff.1 h
      cases hv

private theorem exists_of_foldlM_eq_none {α β : Type} {f : β → α → Option β} {l : List α} {b : β}
    (h : l.foldlM f b = none) : ∃ a ∈ l, ∃ b, f b a = none := by
  induction l generalizing b with
  | nil => cases h
  | cons a l ih =>
    rw [List.foldlM_cons] at h
    cases hfa : f b a with
    | none => exact ⟨a, List.mem_cons_self, b, hfa⟩
    | some b' =>
      rw [hfa] at h
      obtain ⟨a', ha', hb⟩ := ih h
      exact ⟨a', List.mem_cons_of_mem a ha', hb⟩

/-- Only a wide object literal does. -/
theorem wide_of_readObject? {body : List Char} (h : readObject? body = none) : Wide body := by
  induction hlen : body.length using Nat.strongRecOn generalizing body with
  | _ len ih =>
    rw [readObject?_eq_foldlM] at h
    obtain ⟨e, he, acc, hadd⟩ := exists_of_foldlM_eq_none h
    have hsub := subset_of_mem_splitTopLevel he
    refine Wide.mono ?_ hsub
    cases hentry : contribution? e with
    | none => exact wide_of_contribution? hentry
    | some entry =>
      rw [hentry, Option.bind_some] at hadd
      cases entry with
      | nothing => cases hadd
      | spread => cases hadd
      | prop key value => cases hadd
      | nested inner =>
        have hlt := Nat.lt_of_lt_of_le (length_nested_lt_of_contribution? hentry)
          (length_le_of_mem_splitTopLevel he)
        have hinner := ih inner.length (hlen ▸ hlt) (Option.map_eq_none_iff.1 hadd) rfl
        exact hinner.mono (subset_of_contribution? hentry)

end Script

/-! ### Tags -/

/-- The text of the value of an attribute. -/
def AttrValue.chars : AttrValue → List Char
  | .bare => []
  | .text s => s
  | .expr e => e

private theorem readValue?_subset {flavor : Flavor} {s : List Char} {v : AttrValue}
    {before length : Nat} (h : readValue? flavor s = some (v, before, length)) : v.chars ⊆ s := by
  cases s with
  | nil => cases h
  | cons c s =>
    have htake : ∀ n, s.take n ⊆ c :: s := fun n =>
      List.Subset.trans (List.take_subset n s) (List.subset_cons_self c s)
    simp only [readValue?] at h
    split at h
    · obtain ⟨n, -, hn⟩ := Option.map_eq_some_iff.1 h
      cases hn
      exact htake n
    · split at h
      · obtain ⟨n, -, hn⟩ := Option.map_eq_some_iff.1 h
        cases hn
        exact htake n
      · cases flavor with
        | jsx => cases h
        | markup =>
          cases h
          exact List.take_subset _ _

private theorem readAttribute?_subset {flavor : Flavor} {s : List Char} {a : Attribute}
    (h : readAttribute? flavor s = some a) : a.value.chars ⊆ s := by
  rw [readAttribute?] at h
  split at h
  · next value hvalue =>
    obtain ⟨⟨v, before, length⟩, hread, rfl⟩ := Option.map_eq_some_iff.1 h
    have hrest : value ⊆ s := by
      intro c hc
      exact List.mem_of_mem_drop (List.mem_of_mem_drop (hvalue ▸ List.mem_cons_of_mem '=' hc))
    exact List.Subset.trans (readValue?_subset hread) <|
      List.Subset.trans (Script.skipSpace_subset value) hrest
  · cases h
    exact List.nil_subset s

private theorem wide_of_plainValue? {v : AttrValue} (h : plainValue? v = none) : Wide v.chars := by
  cases v with
  | bare => cases h
  | text s => cases h
  | expr e => exact Script.wide_of_classify h

private theorem wide_of_boundValue? {v : AttrValue} (h : boundValue? v = none) : Wide v.chars := by
  cases v with
  | bare => cases h
  | text s => exact Script.wide_of_classify h
  | expr e => exact Script.wide_of_classify h

private theorem wide_of_apply? {s : Site} {flavor : Flavor} {a : Attribute}
    (h : s.apply? flavor a = none) : Wide a.value.chars := by
  have hmeaning := Option.map_eq_none_iff.1 h
  cases flavor with
  | jsx => exact wide_of_plainValue? (Option.map_eq_none_iff.1 hmeaning)
  | markup =>
    rw [Attribute.meaning?, markupMeaning?] at hmeaning
    split at hmeaning
    · cases hmeaning
    · split at hmeaning
      · exact wide_of_boundValue? (Option.map_eq_none_iff.1 hmeaning)
      · split at hmeaning
        · exact wide_of_boundValue? (Option.map_eq_none_iff.1 hmeaning)
        · split at hmeaning
          · cases hmeaning
          · exact wide_of_plainValue? (Option.map_eq_none_iff.1 hmeaning)

section Tag

variable {flavor : Flavor} {scan : InnerScan}

private theorem TagState.wide_of_addAttribute (hscan : scan.FailsOn .splitCharacter Wide)
    {st : TagState} {place : Nat} {a : Attribute}
    (h : st.addAttribute flavor scan place a = .error .splitCharacter) : Wide a.value.chars := by
  rcases TagState.addAttribute_eq_error h with ⟨e, hvalue, hfail⟩ | ⟨site, -, happly⟩
  · rw [hvalue]
    exact hscan _ _ hfail
  · exact wide_of_apply? happly

private theorem wide_of_tagWalk (hscan : scan.FailsOn .splitCharacter Wide) {name : List Char}
    {st : TagState} {place skip : Nat} {s : List Char}
    (h : tagWalk flavor scan name st place skip s = .error .splitCharacter) : Wide s := by
  induction s generalizing st place skip with
  | nil => cases skip <;> cases h
  | cons c rest ih =>
    have hrest : ∀ {st skip}, tagWalk flavor scan name st (place + 1) skip rest =
        .error .splitCharacter → Wide (c :: rest) := fun h =>
      (ih h).mono (List.subset_cons_self c rest)
    cases skip with
    | succ skip => exact hrest h
    | zero =>
      rw [tagWalk] at h
      split at h
      · cases h
      · cases h
      · exact hrest h
      · exact hrest h
      · next a ha =>
        split at h
        · next e hadd =>
          cases h
          have hvalue := readAttribute?_subset (readAttribute?_of_tagPart ha)
          exact (TagState.wide_of_addAttribute hscan hadd).mono hvalue
        · exact hrest h

private theorem newSite_ne_splitCharacter {settings : ScanSettings} {count start : Nat}
    {tag name : List Char} : newSite settings count tag name start ≠ .error .splitCharacter := by
  rw [newSite]
  split <;> simp

private theorem tagSite_ne_splitCharacter {settings : ScanSettings} {count start : Nat}
    {name : List Char} : tagSite settings count name start ≠ .error .splitCharacter := by
  rw [tagSite]
  split
  · simp
  · next canonical _ =>
    cases hnew : newSite settings count name canonical start with
    | error e =>
      rintro ⟨⟩
      exact newSite_ne_splitCharacter hnew
    | ok site => simp [Except.map]

private theorem wide_of_readTag {settings : ScanSettings}
    (hscan : scan.FailsOn .splitCharacter Wide) {count start : Nat} {s : List Char}
    (h : readTag settings flavor scan count start s = .error .splitCharacter) : Wide s := by
  rcases readTag_eq_error h with hsite | ⟨site, -, hwalk⟩
  · exact absurd hsite tagSite_ne_splitCharacter
  · exact (wide_of_tagWalk hscan hwalk).mono (List.drop_subset _ _)

end Tag

/-! ### Calls -/

private theorem calledElement?_subset {marker args tag rest : List Char}
    (h : calledElement? marker args = some (tag, rest)) : rest ⊆ args := by
  rw [calledElement?] at h
  split at h
  · cases h
  · next c s hargs =>
    have hsub : c :: s ⊆ args := hargs ▸ Script.skipSpace_subset args
    split at h
    · dsimp only at h
      split at h
      · cases h
        exact List.Subset.trans (List.drop_subset _ s) <|
          List.Subset.trans (List.subset_cons_self c s) hsub
      · cases h
    · split at h
      · cases h
        exact List.Subset.trans (List.dropWhile_sublist _).subset hsub
      · cases h

private theorem nextObject?_subset {rest body : List Char} (h : nextObject? rest = some body) :
    body ⊆ rest := by
  rw [nextObject?] at h
  split at h
  · next s hs =>
    split at h
    · next t ht =>
      obtain ⟨n, -, rfl⟩ := Option.map_eq_some_iff.1 h
      have hs : s ⊆ rest :=
        List.Subset.trans (List.subset_cons_self ',' s) (hs ▸ Script.skipSpace_subset rest)
      have ht : t ⊆ s :=
        List.Subset.trans (List.subset_cons_self _ t) (ht ▸ Script.skipSpace_subset s)
      exact List.Subset.trans (List.take_subset n t) (List.Subset.trans ht hs)
    · cases h
  · cases h

private theorem wide_of_callSite {settings : ScanSettings} {count start place : Nat} {s : List Char}
    (h : callSite settings count start place s = .error .splitCharacter) : Wide s := by
  obtain ⟨t, tag, rest, name, ht, htag, -, hfail⟩ := callSite_eq_error h
  have hargs : (callArguments (place + Script.spaceLength s + 1) t).1 ⊆ s :=
    List.Subset.trans (callArguments_isPrefix _ t).subset <|
      List.Subset.trans (List.subset_cons_self '(' t) (ht ▸ Script.skipSpace_subset s)
  rcases hfail with hnew | ⟨body, hbody, hread⟩
  · exact absurd hnew newSite_ne_splitCharacter
  · have hrest := (Script.wide_of_readObject? hread).mono (nextObject?_subset hbody)
    exact (hrest.mono (calledElement?_subset htag)).mono hargs

/-! ### Whole files -/

/-- Tags and calls split a character only in a text with a wide one. -/
theorem readersFailOn_wide (settings : ScanSettings) :
    ReadersFailOn settings .splitCharacter Wide where
  mono hst h := h.mono hst.subset
  tag := wide_of_readTag
  call := wide_of_callSite

/-- **Texts in ASCII are safe.** Only a wide text can stop a scan inside a character. -/
theorem wide_of_findSites {options : ExtractOptions} {dialect : Dialect} {text : List Char}
    (h : findSites options dialect text = .error .splitCharacter) : Wide text := by
  rw [findSites] at h
  split at h
  · cases h
  split at h
  · cases h
  split at h
  · cases h
  cases hscan : scanText options dialect text with
  | error e =>
    rw [hscan] at h
    cases h
    exact (readersFailOn_wide _).scanText hscan
  | ok found =>
    rw [hscan] at h
    cases h

/-- An extraction splits a character only in a text with a wide one. -/
theorem wide_of_extract {options : ExtractOptions} {path text : String}
    (h : extract options path text = .error .splitCharacter) : Wide text.toList := by
  rw [extract] at h
  cases hfind : findSites options (Dialect.ofPath ⟨path⟩) text.toList with
  | error e =>
    rw [hfind] at h
    cases h
    exact wide_of_findSites hfind
  | ok sites =>
    rw [hfind] at h
    cases h

namespace Offset

/-- **No access of an extraction fails but the one that takes the quotes off a literal.** The run on
byte offsets, with every read and every cut checked, gives the answer of the extraction, and only
the limits of the scan end it otherwise. That one cut fails exactly on unterminated literals that
end inside a character, so never in ASCII text. -/
theorem extract_fails_only_on_split_literals (options : ExtractOptions) (path text : String) :
    extract options path text = lift (ComponentAudit.extract options path text) ∧
      (∀ h, extract options path text = .error h →
        h = .splitLiteral ∨ ∃ e, e ≠ .splitCharacter ∧ h = .limit e) ∧
      (∀ e, classify e = ofOption (Script.classify e) ∧ ∀ h, classify e = .error h ↔
        h = .splitLiteral ∧ CutsCharacter (bytes (Script.bareExpression e))) ∧
      ((∀ c ∈ text.toList, c.toNat < 128) → extract options path text ≠ .error .splitLiteral) := by
  have heq := extract_eq options path text
  refine ⟨heq, fun h hfail => ?_, fun e => ⟨classify_eq e, classify_eq_error_iff e⟩,
    fun hascii hfail => ?_⟩
  · obtain ⟨e, -, rfl⟩ := lift_eq_error_iff.1 (heq.symm.trans hfail)
    cases e with
    | splitCharacter => exact .inl rfl
    | tooLarge size limit => exact .inr ⟨.tooLarge size limit, nofun, rfl⟩
    | binary => exact .inr ⟨.binary, nofun, rfl⟩
    | tooManySites limit => exact .inr ⟨.tooManySites limit, nofun, rfl⟩
    | timeout limit => exact .inr ⟨.timeout limit, nofun, rfl⟩
  · obtain ⟨e, hresult, he⟩ := lift_eq_error_iff.1 (heq.symm.trans hfail)
    obtain rfl := Halt.ofError_eq_splitLiteral_iff.1 he
    obtain ⟨c, hc, hwide⟩ := wide_of_extract hresult
    exact Nat.not_lt_of_le hwide (hascii c hc)

/-- The literal in parentheses ends with its line, and its last character has two bytes. -/
theorem extract_fails_only_on_split_literals_open_quote :
    extract {} "a.vue" "<va-alert :status=\"'é\"/>" = .error .splitLiteral ∧
      extract {} "a.vue" "<va-alert :status=\"'e\"/>" ≠ .error .splitLiteral ∧
      classify "('é\n)".toList = .error .splitLiteral := by
  obtain ⟨hwide, -, hclassify, -⟩ :=
    extract_fails_only_on_split_literals {} "a.vue" "<va-alert :status=\"'é\"/>"
  obtain ⟨-, -, -, hascii⟩ :=
    extract_fails_only_on_split_literals {} "a.vue" "<va-alert :status=\"'e\"/>"
  refine ⟨?_, hascii (forall_lt_of_all (by decide)), ((hclassify _).2 _).2 ⟨rfl, ?_⟩⟩
  · have hresult : ComponentAudit.extract {} "a.vue" "<va-alert :status=\"'é\"/>" =
        .error .splitCharacter := by decide +kernel
    rw [hwide, hresult]
    rfl
  · have hbare : bytes (Script.bareExpression "('é\n)".toList) =
        ['\'', Char.ofNat 0xC3, Char.ofNat 0xA9] := by decide +kernel
    rw [hbare]
    refine ⟨'\'', [Char.ofNat 0xC3], Char.ofNat 0xA9, rfl, .inl rfl, ?_, by decide, by decide⟩
    exact .plain (by decide) (by decide) (by decide)
      (.plain (by decide) (by decide) (by decide) .nil)

end Offset

end ComponentAudit
