import ComponentAudit.Site.Call
import ComponentAudit.Site.Script

/-!
# Invocations in a text

An *invocation* is what a scan says about a site apart from its end and its props: which element is
invoked, and where. It is *real* when the text at its place does invoke that element, by a start
tag or by a call of an element factory, and the element carries the marker of the catalog.

A scan keeps its sites latest first. `Traced marker tags text lo hi is` says of such a list that the
invocations are real, lie in the stretch of the text from `lo` to `hi`, and go strictly backwards.
The point of the stretch is composition: what was found further on goes in front of what was found
before it (`Traced.append`), so each step of a scan only has to account for its own stretch.

Whether start tags count at all is the flag `tags`. Where they do not, every invocation is a call.
-/

namespace ComponentAudit

/-! ### What stands at a place -/

/-- The text begins with a start tag of the element `tag`. -/
def BeginsTag (tag s : List Char) : Prop := '<' :: tag <+: s

/-- The text begins with a call of an element factory whose first argument is `tag`, bare or after
a quote. Only token separators may stand between the parts. -/
def BeginsCall (tag s : List Char) : Prop :=
  ∃ factory ∈ elementFactories, ∃ gap gap' quote : List Char,
    (∀ c ∈ gap, Text.isSpace c = true) ∧ (∀ c ∈ gap', Text.isSpace c = true) ∧
      quote ∈ [[], ['\''], ['"']] ∧ factory ++ gap ++ '(' :: gap' ++ quote ++ tag <+: s

/-- The text begins with an invocation of the element `tag`; start tags count if `tags` is set. -/
def BeginsInvocation (tags : Bool) (tag s : List Char) : Prop :=
  (tags = true ∧ BeginsTag tag s) ∨ BeginsCall tag s

/-- What a text begins with, every longer text begins with as well. -/
theorem BeginsCall.of_isPrefix {tag s t : List Char} (h : BeginsCall tag s) (ht : s <+: t) :
    BeginsCall tag t := by
  obtain ⟨factory, hfactory, gap, gap', quote, hgap, hgap', hquote, hs⟩ := h
  exact ⟨factory, hfactory, gap, gap', quote, hgap, hgap', hquote, hs.trans ht⟩

/-! ### Invocations -/

/-- Which element is invoked, under which catalog name, and where. -/
structure Invocation where
  tag : String
  name : String
  start : Nat
  deriving DecidableEq, Repr

/-- The invocation at a site. -/
def Site.invocation (s : Site) : Invocation := ⟨s.tag, s.name, s.start⟩

/-- The invocation is there: its element is one of the catalog's, and the text at its place
invokes it. -/
structure Invocation.Real (marker : List Char) (tags : Bool) (text : List Char) (i : Invocation) :
    Prop where
  canonical : canonicalName? marker i.tag.toList = some i.name.toList
  begins : BeginsInvocation tags i.tag.toList (text.drop i.start)

/-- The invocations are real, lie between two places of the text, and go strictly backwards. -/
structure Traced (marker : List Char) (tags : Bool) (text : List Char) (lo hi : Nat)
    (is : List Invocation) : Prop where
  backwards : is.Pairwise fun a b => b.start < a.start
  bounds : ∀ i ∈ is, lo ≤ i.start ∧ i.start < hi
  real : ∀ i ∈ is, i.Real marker tags text

section Traced

variable {marker : List Char} {tags : Bool} {text : List Char} {lo mid hi : Nat}
  {is js : List Invocation}

theorem Traced.nil : Traced marker tags text lo hi [] :=
  ⟨List.Pairwise.nil, fun _ h => absurd h List.not_mem_nil, fun _ h => absurd h List.not_mem_nil⟩

theorem Traced.singleton {i : Invocation} (h : i.Real marker tags text) (hhi : i.start < hi) :
    Traced marker tags text i.start hi [i] := by
  refine ⟨List.pairwise_singleton _ _, fun j hj => ?_, fun j hj => ?_⟩
  · rw [List.mem_singleton.1 hj]
    exact ⟨Nat.le_refl _, hhi⟩
  · rwa [List.mem_singleton.1 hj]

/-- A stretch may be taken wider than it is. -/
theorem Traced.mono {lo' hi' : Nat} (h : Traced marker tags text lo hi is) (hlo : lo' ≤ lo)
    (hhi : hi ≤ hi') : Traced marker tags text lo' hi' is :=
  ⟨h.backwards, fun i hmem =>
    ⟨Nat.le_trans hlo (h.bounds i hmem).1, Nat.lt_of_lt_of_le (h.bounds i hmem).2 hhi⟩, h.real⟩

/-- Calls remain invocations when start tags count as well. -/
theorem Traced.of_tags (h : Traced marker tags text lo hi is) :
    Traced marker true text lo hi is :=
  ⟨h.backwards, h.bounds, fun i hmem =>
    ⟨(h.real i hmem).canonical, (h.real i hmem).begins.imp_left fun h => ⟨rfl, h.2⟩⟩⟩

/-- What was found further on goes in front of what was found before. -/
theorem Traced.append (hnew : Traced marker tags text mid hi js)
    (hold : Traced marker tags text lo mid is) (hlo : lo ≤ mid) (hhi : mid ≤ hi) :
    Traced marker tags text lo hi (js ++ is) := by
  refine ⟨List.pairwise_append.2 ⟨hnew.backwards, hold.backwards, fun j hj i hi => ?_⟩,
    fun i hmem => ?_, fun i hmem => ?_⟩
  · exact Nat.lt_of_lt_of_le (hold.bounds i hi).2 (hnew.bounds j hj).1
  · rcases List.mem_append.1 hmem with h | h
    · exact ⟨Nat.le_trans hlo (hnew.bounds i h).1, (hnew.bounds i h).2⟩
    · exact ⟨(hold.bounds i h).1, Nat.lt_of_lt_of_le (hold.bounds i h).2 hhi⟩
  · rcases List.mem_append.1 hmem with h | h
    · exact hnew.real i h
    · exact hold.real i h

end Traced

end ComponentAudit
