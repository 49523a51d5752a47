import ComponentAudit.Catalog.Builtin
import ComponentAudit.Proofs.Rules.Origin
import ComponentAudit.Proofs.Rules.Standing
import Mathlib.Algebra.GroupWithZero.Nat
import Mathlib.Algebra.Order.BigOperators.Group.List
import Mathlib.Algebra.Order.Group.Nat

/-!
# Verdicts on usages with a spread

A spread brings in props that are not written at the usage. `Usage.Supplied u u'` says that `u'` is
what a usage `u` with a spread may turn out to be: all its props have the values they had, and more
props may have come in.

Rules that look for something absent must leave such a usage alone, or only remark on it, and they
do so with one exception: `keyboardInaccessible` asks for an event that the keyboard reaches without
regard to the spread. The judgements of the design rules stand (`DesignRule.standsAlong_supplied`),
and so do those of the other accessibility families (`AccessRule.standsAlong_supplied`). Those of
the exception stand exactly if no such event comes in, and no further pointer event that the message
would name as well.

The main statement is `judgements_of_spread_stand_iff`.
-/

namespace ComponentAudit

/-! ### Further props -/

/-- The usage with further props. -/
def Usage.withProps (u : Usage) (extra : List (String × PropValue)) : Usage :=
  { u with props := u.props.insertAll extra }

/-- The second usage is what the first, which has a spread, may turn out to be: what is written
stays, and props that are not written may have come in. -/
structure Usage.Supplied (u u' : Usage) : Prop where
  componentName : u'.componentName = u.componentName
  start : u'.start = u.start
  spread : u.spread = true
  spread' : u'.spread = true
  prop : ∀ {name : String} {v : PropValue}, u.prop? name = some v → u'.prop? name = some v

section Insertion

variable {β : Type} {p : String → Bool}

/-- An entry that a search does not look for makes no difference to it. -/
private theorem find?_insertEntry_of_not {k : String} (hp : p k = false) (v : β)
    (l : List (String × β)) :
    (NameTable.insertEntry k v l).find? (fun e => p e.1) = l.find? fun e => p e.1 := by
  have hhere : ∀ w : β, ¬ p (k, w).1 = true := fun w => by simp [hp]
  induction l with
  | nil => exact List.find?_cons_of_neg (hhere v)
  | cons e rest ih =>
    rw [NameTable.insertEntry]
    split
    · exact List.find?_cons_of_neg (hhere v)
    · split
      · next hk => simp only [List.find?_cons, ← hk, hp]
      · rw [List.find?_cons, List.find?_cons, ih]

private theorem NameTable.find?_insertAll_of_not (entries : List (String × β))
    (hp : ∀ e ∈ entries, p e.1 = false) (t : NameTable β) :
    (t.insertAll entries).find? p = t.find? p := by
  induction entries generalizing t with
  | nil => rfl
  | cons e rest ih =>
    obtain ⟨he, hrest⟩ := List.forall_mem_cons.1 hp
    have hinsert : (t.insert e.1 e.2).find? p = t.find? p :=
      congrArg (Option.map Prod.snd) (find?_insertEntry_of_not he e.2 t.entries)
    exact (ih hrest (t.insert e.1 e.2)).trans hinsert

end Insertion

/-- Props that come in under new names are supplied by the spread. -/
theorem Usage.supplied_withProps {u : Usage} {extra : List (String × PropValue)}
    (hspread : u.spread = true)
    (hnew : ∀ e ∈ extra, propKey e.1 ∉ u.props.keys.map propKey) :
    u.Supplied (u.withProps extra) where
  componentName := rfl
  start := rfl
  spread := hspread
  spread' := hspread
  prop {name v} h := by
    have hother : ∀ e ∈ extra, decide (propKey e.1 = propKey name) = false := by
      intro e he
      obtain ⟨k, hk, hname⟩ := Usage.exists_entry_of_prop? h
      refine decide_eq_false fun hkey => hnew e he ?_
      rw [hkey, ← hname]
      exact List.mem_map_of_mem (List.mem_map_of_mem hk)
    exact (NameTable.find?_insertAll_of_not extra hother u.props).trans h

section Supplied

variable {u u' : Usage}

theorem Usage.Supplied.keeps (h : u.Supplied u') : u.Keeps u' := ⟨h.componentName, h.start, h.prop⟩

theorem Usage.Supplied.hasProp (h : u.Supplied u') {name : String} (hname : u.hasProp name = true) :
    u'.hasProp name = true := by
  obtain ⟨v, hv⟩ := Option.isSome_iff_exists.1 hname
  exact Option.isSome_iff_exists.2 ⟨v, h.prop hv⟩

theorem Usage.Supplied.present (h : u.Supplied u') (names : List String) :
    (u.present names).Sublist (u'.present names) :=
  List.monotone_filter_right names fun _ hname => h.hasProp hname

end Supplied

/-! ### Design rules -/

namespace DesignRule

/-- On a usage with a spread a missing prop is only remarked. -/
theorem missingRequiredProp_standsAlong_supplied :
    missingRequiredProp.StandsAlong Usage.Supplied := by
  rintro catalog (_ | spec) u u' h
  · exact List.nil_sublist _
  · have hremarks : (missingRequiredProp.check ⟨catalog, u, some spec⟩).filter
        Issue.isJudgement = [] := by
      refine List.filter_eq_nil_iff.2 fun i hi => ?_
      obtain ⟨prop, -, rfl⟩ := List.mem_map.1 hi
      simp [missingProp, h.spread, Issue.isJudgement, Issue.withProp, Issue.design]
    rw [hremarks]
    exact List.nil_sublist _

private theorem deprecatedProp_standsAlong_supplied :
    deprecatedProp.StandsAlong Usage.Supplied := by
  rintro catalog (_ | spec) u u' h
  · exact List.nil_sublist _
  · have hprops : (spec.deprecatedProps.filter fun d => u.hasProp d.prop).Sublist
        (spec.deprecatedProps.filter fun d => u'.hasProp d.prop) :=
      List.monotone_filter_right _ fun d hd => h.hasProp hd
    simp only [deprecatedProp, deprecatedPropIssue_eq h.keeps]
    exact List.filter_sublist.trans (hprops.map _)

/-- No builtin rule holds against a usage with a spread what the spread may supply. -/
theorem standsAlong_supplied {rule : DesignRule} (h : rule ∈ builtin) :
    rule.StandsAlong Usage.Supplied := by
  simp only [builtin, List.mem_cons, List.not_mem_nil, or_false] at h
  rcases h with rfl | rfl | rfl | rfl | rfl | rfl
  · exact unknownComponent_standsAlong.mono Usage.Supplied.keeps
  · exact deprecatedComponent_standsAlong.mono Usage.Supplied.keeps
  · exact missingRequiredProp_standsAlong_supplied
  · exact deprecatedProp_standsAlong_supplied
  · exact invalidEnumValue_standsAlong.mono Usage.Supplied.keeps
  · exact forbiddenPropCombination_standsAlong.mono Usage.Supplied.keeps

end DesignRule

/-! ### Accessibility rules -/

namespace AccessRule

/-- A family that leaves usages with a spread alone. -/
def SparesSpread (rule : AccessRule) : Prop :=
  ∀ v : AccessView, v.usage.spread = true → rule.check v = []

/-- A rule that is silent about spread usages stands when a spread supplies props. -/
theorem SparesSpread.standsAlong {rule : AccessRule} (h : rule.SparesSpread) :
    rule.StandsAlong Usage.Supplied := by
  intro catalog spec labels proximity u u' hsupplied
  rw [h ⟨catalog, u, spec, labels, proximity⟩ hsupplied.spread]
  exact List.nil_sublist _

private theorem missingAccessibleName_sparesSpread : missingAccessibleName.SparesSpread := by
  intro v hspread
  simp [missingAccessibleName, hspread]

private theorem missingAltText_sparesSpread : missingAltText.SparesSpread := by
  intro v hspread
  simp [missingAltText, hspread]

private theorem colorOnlyState_sparesSpread : colorOnlyState.SparesSpread := by
  intro v hspread
  simp only [colorOnlyState, hspread, Bool.true_or, if_true]
  split <;> rfl

/-- No builtin family but one holds against a usage with a spread what the spread may supply. -/
theorem standsAlong_supplied {rule : AccessRule} (h : rule ∈ builtin)
    (hid : rule.id ≠ "keyboard-inaccessible") : rule.StandsAlong Usage.Supplied := by
  simp only [builtin, List.mem_cons, List.not_mem_nil, or_false] at h
  rcases h with rfl | rfl | rfl | rfl | rfl
  · exact missingAccessibleName_sparesSpread.standsAlong
  · exact missingAltText_sparesSpread.standsAlong
  · exact colorOnlyState_sparesSpread.standsAlong
  · exact absurd rfl hid
  · exact emptyAccessibleName_standsAlong.mono Usage.Supplied.keeps

end AccessRule

/-! ### The exception

The message of `keyboardInaccessible` lists the pointer events that are present. That it names no
others is seen from its length: a longer list of names is longer as a text. -/

private theorem length_intercalate (sep : String) {names : List String} (h : names ≠ []) :
    (sep.intercalate names).length + sep.length =
      (names.map String.length).sum + names.length * sep.length := by
  induction names with
  | nil => exact absurd rfl h
  | cons name names ih =>
    by_cases hnames : names = []
    · simp [hnames]
    · rw [String.intercalate_cons_of_ne_nil hnames, String.length_append, String.length_append,
        List.map_cons, List.sum_cons, List.length_cons, Nat.succ_mul]
      have := ih hnames
      omega

private theorem oneOf_concat {names : List String} (h : names ≠ []) (last : String) :
    oneOf (names ++ [last]) = ", ".intercalate names ++ " or " ++ last := by
  have hlast : oneOf (names ++ [last]) =
      ", ".intercalate (names ++ [last]).dropLast ++ " or " ++
        (names ++ [last]).getLast?.getD "" := by
    refine oneOf.eq_3 _ (by simp) fun name hname => h ?_
    exact (List.append_eq_singleton_iff.1 hname).elim And.left fun hlist => by simp at hlist
  simpa using hlast

private theorem length_oneOf (names : List String) :
    (oneOf names).length =
      (names.map String.length).sum + if names.length ≤ 1 then 0 else 2 * names.length := by
  rcases List.eq_nil_or_concat' names with rfl | ⟨init, last, rfl⟩
  · rfl
  by_cases hinit : init = []
  · simp [hinit, oneOf]
  · have hcomma := length_intercalate ", " hinit
    have hpos : 0 < init.length := List.length_pos_iff.2 hinit
    have hsep : (", " : String).length = 2 := rfl
    have hor : (" or " : String).length = 4 := rfl
    rw [hsep] at hcomma
    rw [oneOf_concat hinit, String.length_append, String.length_append, hor, List.map_append,
      List.sum_append, List.length_append, List.map_singleton, List.sum_singleton,
      List.length_singleton, if_neg (by omega)]
    omega

/-- A list of names that goes on is told from the list that it goes on from. -/
theorem eq_of_oneOf_eq {names more : List String} (h : names.Sublist more) (hne : names ≠ [])
    (heq : oneOf more = oneOf names) : more = names := by
  refine (h.eq_of_length_le ?_).symm
  have hsum : (names.map String.length).sum ≤ (more.map String.length).sum :=
    (h.map _).sum_le_sum fun _ _ => Nat.zero_le _
  have hpos : 0 < names.length := List.length_pos_iff.2 hne
  have hlength := congrArg String.length heq
  rw [length_oneOf, length_oneOf] at hlength
  split at hlength <;> split at hlength <;> omega

namespace AccessRule

/-- What the family reports: it is the finding on the pointer events that are present. -/
theorem mem_keyboardInaccessible_iff {v : AccessView} {f : Finding} :
    f ∈ keyboardInaccessible.check v ↔
      ∃ event events, v.usage.present v.catalog.access.pointerEvents = event :: events ∧
        v.usage.present v.catalog.access.keyboardEvents = [] ∧
        f = { message := s!"'{v.usage.componentName}' handles {oneOf (event :: events)} " ++
                "with no keyboard equivalent"
              prop := some event } := by
  simp only [keyboardInaccessible]
  split
  · next hnone => simp [hnone]
  · next event events hevents =>
    rw [hevents]
    split
    · next hkeys => simp_all
    · next hkeys => simp_all

/-- A finding of the family stands exactly if no event that the keyboard reaches comes in, and no
further pointer event. -/
theorem keyboardInaccessible_of_supplied {u u' : Usage} (h : u.Supplied u') {catalog : Catalog}
    {spec : ComponentSpec} {labels : LabelIndex} {proximity : Nat} {f : Finding}
    (hf : f ∈ keyboardInaccessible.check ⟨catalog, u, spec, labels, proximity⟩) :
    f ∈ keyboardInaccessible.check ⟨catalog, u', spec, labels, proximity⟩ ↔
      u'.present catalog.access.pointerEvents = u.present catalog.access.pointerEvents ∧
        u'.present catalog.access.keyboardEvents = [] := by
  obtain ⟨event, events, hevents, -, rfl⟩ := mem_keyboardInaccessible_iff.1 hf
  rw [mem_keyboardInaccessible_iff]
  constructor
  · rintro ⟨event', events', hevents', hkeys, hfinding⟩
    refine ⟨?_, hkeys⟩
    rw [hevents', hevents]
    have hsub : (event :: events).Sublist (event' :: events') :=
      hevents ▸ hevents' ▸ h.present catalog.access.pointerEvents
    refine eq_of_oneOf_eq hsub (List.cons_ne_nil _ _) ?_
    have hmessage := congrArg Finding.message hfinding
    simp only [h.componentName, String.append_left_inj, String.append_right_inj] at hmessage
    exact hmessage.symm
  · rintro ⟨hpointer, hkeys⟩
    exact ⟨event, events, hpointer.trans hevents, hkeys, by rw [h.componentName]⟩

end AccessRule

/-! ### Engines -/

/-- **What is held against a usage with a spread stands whatever the spread supplies, but for the
lack of keyboard events.** Take a usage with a spread, and add props under names that it does not
have yet. Every judgement of the design rules on the usage is reported again, and so is every issue
of the requested accessibility rules; only an issue of `keyboard-inaccessible` is reported again
exactly when neither an event that the keyboard reaches has come in, nor a further pointer event. -/
theorem judgements_of_spread_stand_iff (catalog : Catalog) (requested : List String)
    (proximity : Nat) (siblings : List Usage) (u : Usage) (extra : List (String × PropValue))
    (hspread : u.spread = true)
    (hnew : ∀ e ∈ extra, propKey e.1 ∉ u.props.keys.map propKey) :
    ((DesignEngine.evaluate { catalog } u).filter Issue.isJudgement).Sublist
        (DesignEngine.evaluate { catalog } (u.withProps extra)) ∧
      ∀ i ∈ AccessEngine.evaluate { catalog, requested, proximity } u siblings,
        (i ∈ AccessEngine.evaluate { catalog, requested, proximity } (u.withProps extra) siblings ↔
          (i.rule = "keyboard-inaccessible" →
            (u.withProps extra).present catalog.access.pointerEvents =
                u.present catalog.access.pointerEvents ∧
              (u.withProps extra).present catalog.access.keyboardEvents = [])) := by
  have hsupplied : u.Supplied (u.withProps extra) := Usage.supplied_withProps hspread hnew
  refine ⟨DesignEngine.judgements_sublist_of_standsAlong _
    (fun _ hrule => DesignRule.standsAlong_supplied hrule) hsupplied hsupplied.keeps,
    fun i hi => ?_⟩
  obtain ⟨spec, hspec, rule, hrule, f, hf, rfl⟩ := AccessEngine.mem_evaluateWith_iff.1 hi
  have hbuiltin : rule ∈ AccessRule.builtin := AccessEngine.mem_rules_of_mem_enabledRules hrule
  have hspec' : catalog.get? (u.withProps extra).componentName = some spec := hspec
  -- The issue is the same on both usages, so it is for the rule to find it again.
  rw [← AccessRule.issue_eq_of_keeps hsupplied.keeps rule]
  refine (AccessEngine.issue_mem_evaluateWith_iff AccessRule.nodup_map_id_builtin hspec'
    hrule).trans ?_
  by_cases hid : rule.id = "keyboard-inaccessible"
  · obtain rfl : rule = .keyboardInaccessible := List.inj_on_of_nodup_map
      AccessRule.nodup_map_id_builtin hbuiltin (by simp [AccessRule.builtin]) hid
    rw [AccessRule.keyboardInaccessible_of_supplied hsupplied hf]
    exact ⟨fun hstands _ => hstands, fun hstands => hstands hid⟩
  · have hstands := AccessRule.standsAlong_supplied hbuiltin hid
    exact iff_of_true ((hstands _ _ _ _ u _ hsupplied).subset hf) fun hrule => absurd hrule hid

/-- A catalog of a card that the builtin vocabulary applies to. -/
def cardCatalog : Catalog where
  name := "cards"
  marker := "va-"
  version := "1"
  components := .ofList [("va-card", { name := "va-card", required := ["header"] })]
  access := Catalog.vocabulary

/-- A card that reacts to the pointer, and whose other props are spread. -/
def hoverCard : Usage where
  componentName := "va-card"
  tag := "VaCard"
  filePath := "a.jsx"
  lineNumber := 1
  column := 1
  props := .ofList [("onMouseOver", .reference "show")]
  spread := true

/-- The spread supplies the header: what is held against the card stands, and the remark on the
header goes. -/
theorem judgements_of_spread_stand_iff_header :
    let issuesOf (u : Usage) :=
      AccessEngine.evaluate { catalog := cardCatalog, requested := ["wcag2a"] } u []
    let card := hoverCard.withProps [("header", .unresolved)]
    (issuesOf hoverCard).map (·.rule) = ["keyboard-inaccessible"] ∧
      (DesignEngine.evaluate { catalog := cardCatalog } hoverCard).map (·.severity) = [.info] ∧
      DesignEngine.evaluate { catalog := cardCatalog } card = [] ∧
      ∀ i ∈ issuesOf hoverCard, i ∈ issuesOf card := by
  refine ⟨by decide +kernel, by decide +kernel, by decide +kernel, fun i hi => ?_⟩
  have hstands := judgements_of_spread_stand_iff cardCatalog ["wcag2a"] 3 [] hoverCard
    [("header", .unresolved)] rfl (by decide +kernel)
  exact (hstands.2 i hi).2 fun _ => ⟨by decide +kernel, by decide +kernel⟩

/-- The spread supplies an event that the keyboard reaches: a judgement on the card does not
stand. -/
theorem judgement_of_spread_cured :
    let issuesOf (u : Usage) :=
      AccessEngine.evaluate { catalog := cardCatalog, requested := ["wcag2a"] } u []
    hoverCard.spread = true ∧
      propKey "onKeyDown" ∉ hoverCard.props.keys.map propKey ∧
      ∃ i ∈ issuesOf hoverCard, i.isJudgement = true ∧
        i ∉ issuesOf (hoverCard.withProps [("onKeyDown", .reference "show")]) := by
  decide +kernel

end ComponentAudit
