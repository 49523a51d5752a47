import ComponentAudit.Site.Basic
import ComponentAudit.Text.Find

/-!
# Texts addressed by bytes

The scan counts places in characters, and its functions cannot look beyond their text. A program
that keeps the text encoded counts bytes instead: a read may then miss the text, and a cut may fall
inside a character. The modules here write the scan once more on byte offsets, with every read and
every cut checked, and prove that it comes to the same answers.

An access that fails ends the run with a `Halt`, and so does a loop that makes no progress. Bytes
are given as the characters of the same number, so that the classes of characters apply to them.

`offset` is the byte at which a place stands. `Span text n e s` says that the characters of the text
between two places are `s`; from it come all facts about reads and cuts. A loop over bytes passes
through a character of several bytes one by one, and `Span.loop_succ` says that nothing happens on
the way.
-/

namespace ComponentAudit.Offset

/-! ### Runs that may halt -/

/-- Why a run on byte offsets ends early. -/
inductive Halt where
  /-- The text is beyond the bounds of the scan. -/
  | limit (e : ExtractError)
  /-- A read or a cut beyond the text, or an entry of a table that is not there. -/
  | outOfRange
  /-- A cut inside a character. -/
  | offBoundary
  /-- A loop that does not go forward. -/
  | stalled
  /-- The cut that takes the quotes off a literal failed. -/
  | splitLiteral
  deriving DecidableEq, Repr

instance decidableEqExcept {ε α : Type} [DecidableEq ε] [DecidableEq α] : DecidableEq (Except ε α)
  | .ok a, .ok b => decidable_of_iff (a = b) ⟨congrArg Except.ok, Except.ok.inj⟩
  | .error d, .error e => decidable_of_iff (d = e) ⟨congrArg Except.error, Except.error.inj⟩
  | .ok _, .error _ => isFalse fun h => nomatch h
  | .error _, .ok _ => isFalse fun h => nomatch h

/-- The outcome of a run on byte offsets. -/
abbrev Checked (α : Type) := Except Halt α

@[simp] theorem ok_bind {α β : Type} (a : α) (f : α → Checked β) : (Except.ok a >>= f) = f a := rfl

@[simp] theorem error_bind {α β : Type} (h : Halt) (f : α → Checked β) :
    ((Except.error h : Checked α) >>= f) = .error h := rfl

@[simp] theorem pure_eq_ok {α : Type} (a : α) : (pure a : Checked α) = .ok a := rfl

/-- What a turn of a loop comes to. -/
inductive Turn (σ ρ : Type) where
  /-- The loop ends with this answer. -/
  | done (r : ρ)
  /-- The loop goes on in the given state at the given byte. -/
  | next (st : σ) (i : Nat)

/-- Runs `step` from the byte `i` on for as long as the byte is before `bound`. -/
def loop {σ ρ : Type} (bound : Nat) (step : σ → Nat → Checked (Turn σ ρ)) (finish : σ → Nat → ρ)
    (st : σ) (i : Nat) : Checked ρ :=
  if i < bound then
    match step st i with
    | .error h => .error h
    | .ok (.done r) => .ok r
    | .ok (.next st j) => if i < j then loop bound step finish st j else .error .stalled
  else .ok (finish st i)
termination_by bound - i

section Loop

variable {σ ρ : Type} {bound : Nat} {step : σ → Nat → Checked (Turn σ ρ)} {finish : σ → Nat → ρ}
  {st st' : σ} {i j : Nat}

theorem loop_finish (h : bound ≤ i) : loop bound step finish st i = .ok (finish st i) := by
  rw [loop, if_neg (Nat.not_lt_of_le h)]

theorem loop_done {r : ρ} (hi : i < bound) (h : step st i = .ok (.done r)) :
    loop bound step finish st i = .ok r := by
  rw [loop, if_pos hi, h]

theorem loop_error {h : Halt} (hi : i < bound) (hs : step st i = .error h) :
    loop bound step finish st i = .error h := by
  rw [loop, if_pos hi, hs]

theorem loop_next (hi : i < bound) (h : step st i = .ok (.next st' j)) (hij : i < j) :
    loop bound step finish st i = loop bound step finish st' j := by
  rw [loop, if_pos hi, h]
  simp only [if_pos hij]

/-- A loop goes through bytes at which it does nothing. -/
theorem loop_pass {lo hi : Nat} (hle : lo ≤ hi) (hto : hi ≤ bound)
    (h : ∀ k, lo ≤ k → k < hi → step st k = .ok (.next st (k + 1))) :
    loop bound step finish st lo = loop bound step finish st hi := by
  obtain ⟨d, rfl⟩ := Nat.exists_eq_add_of_le hle
  clear hle
  induction d generalizing lo with
  | zero => rfl
  | succ d ih =>
    rw [loop_next (by omega) (h lo (Nat.le_refl _) (by omega)) (Nat.lt_succ_self lo),
      ih (by omega) fun k hk hk' => h k (by omega) (by omega)]
    congr 1
    omega

end Loop

/-! ### Bytes of characters -/

/-- The bytes of a character. -/
def units (c : Char) : List Char := (String.utf8EncodeChar c).map fun u => Char.ofNat u.toNat

/-- The bytes of a text. -/
def bytes (s : List Char) : List Char := s.flatMap units

private theorem toNat_ofByte (n : Nat) : (Char.ofNat (UInt8.ofNat n).toNat).toNat = n % 256 := by
  have h : (UInt8.ofNat n).toNat = n % 256 := by simp
  have hv : (n % 256).isValidChar := Or.inl (Nat.lt_trans (Nat.mod_lt n (by decide)) (by decide))
  rw [h, Char.ofNat, dif_pos hv]
  rfl

/-- A character has as many units as its encoding has bytes. -/
theorem length_units (c : Char) : (units c).length = c.utf8Size := by
  rw [units, List.length_map, String.length_utf8EncodeChar]

theorem units_ne_nil (c : Char) : units c ≠ [] := by
  have h := c.utf8Size_pos
  rw [← length_units] at h
  exact List.ne_nil_of_length_pos h

/-- An ASCII character is its own byte. -/
theorem units_of_lt {c : Char} (h : c.toNat < 128) : units c = [c] := by
  have hv : c.val.toNat ≤ 0x7f := Nat.le_of_lt_succ h
  have hc : (Char.ofNat (UInt8.ofNat c.val.toNat).toNat).toNat = c.toNat := by
    rw [toNat_ofByte]
    exact Nat.mod_eq_of_lt (Nat.lt_trans h (by decide))
  simp only [units, String.utf8EncodeChar, if_pos hv, List.map_cons, List.map_nil]
  rw [Char.toNat_inj.1 hc]

/-- The bytes of any other character are beyond ASCII, and the last of them is a continuation
byte. -/
private theorem units_of_le {c : Char} (h : 128 ≤ c.toNat) :
    (∀ u ∈ units c, 128 ≤ u.toNat) ∧ ∀ u ∈ (units c).getLast?, u.toNat < 192 := by
  have hv : ¬ c.val.toNat ≤ 0x7f := Nat.not_le_of_lt h
  simp only [units, String.utf8EncodeChar, if_neg hv]
  -- Two, three and four bytes.
  split
  rotate_left
  split
  all_goals
    simp only [List.map_cons, List.map_nil, List.forall_mem_cons, List.getLast?_cons_cons,
      List.getLast?_singleton, Option.mem_some_iff, forall_eq', toNat_ofByte]
    simp only [List.not_mem_nil, false_implies, implies_true, and_true]
    omega

/-- Beyond ASCII no unit of a character is in ASCII. -/
theorem le_of_mem_units {c u : Char} (h : 128 ≤ c.toNat) (hu : u ∈ units c) : 128 ≤ u.toNat :=
  (units_of_le h).1 u hu

theorem utf8Size_of_lt {c : Char} (h : c.toNat < 128) : c.utf8Size = 1 := by
  rw [← length_units, units_of_lt h]
  rfl

/-- Whether a text is ASCII can be checked. -/
theorem forall_lt_of_all {s : List Char} (h : s.all (·.toNat < 128) = true) :
    ∀ c ∈ s, c.toNat < 128 := by
  simpa using h

/-- The first byte of a character. -/
def lead (c : Char) : Char := (units c).head (units_ne_nil c)

/-- The last byte of a character. -/
def trail (c : Char) : Char := (units c).getLast (units_ne_nil c)

/-- A character begins with its lead. -/
theorem units_eq_cons (c : Char) : units c = lead c :: (units c).tail :=
  (List.cons_head_tail (units_ne_nil c)).symm

theorem lead_of_lt {c : Char} (h : c.toNat < 128) : lead c = c := by
  simp [lead, units_of_lt h]

theorem trail_of_lt {c : Char} (h : c.toNat < 128) : trail c = c := by
  simp [trail, units_of_lt h]

theorem le_lead {c : Char} (h : 128 ≤ c.toNat) : 128 ≤ (lead c).toNat :=
  le_of_mem_units h (List.head_mem _)

private theorem le_trail {c : Char} (h : 128 ≤ c.toNat) : 128 ≤ (trail c).toNat :=
  le_of_mem_units h (List.getLast_mem _)

/-- The last byte of a character is a continuation byte exactly if it is not the only one. -/
theorem trail_continues_iff {c : Char} :
    (0x80 ≤ (trail c).toNat ∧ (trail c).toNat < 0xC0) ↔ c.utf8Size ≠ 1 := by
  by_cases h : c.toNat < 128
  · rw [trail_of_lt h, utf8Size_of_lt h]
    omega
  · have hle : 128 ≤ c.toNat := Nat.le_of_not_lt h
    have hlast : trail c ∈ (units c).getLast? := by
      rw [List.getLast?_eq_some_getLast (units_ne_nil c)]
      rfl
    refine iff_of_true ⟨le_trail hle, (units_of_le hle).2 _ hlast⟩ fun hsize => ?_
    -- A character of one byte has a number below 128.
    have hone := UInt32.le_iff_toNat_le.1 (Char.utf8Size_eq_one_iff.1 hsize)
    exact absurd (Nat.lt_succ_of_le hone) h

/-- A class of characters that does not tell those beyond ASCII apart. -/
def AsciiOnly (p : Char → Bool) : Prop :=
  ∀ u v : Char, 128 ≤ u.toNat → 128 ≤ v.toNat → p u = p v

/-- Whether a character is in such a class is told by its lead. -/
theorem AsciiOnly.lead {p : Char → Bool} (hp : AsciiOnly p) (c : Char) : p (lead c) = p c := by
  by_cases h : c.toNat < 128
  · rw [lead_of_lt h]
  · exact hp _ _ (le_lead (Nat.le_of_not_lt h)) (Nat.le_of_not_lt h)

/-- It is told by its last unit as well. -/
theorem AsciiOnly.trail {p : Char → Bool} (hp : AsciiOnly p) (c : Char) : p (trail c) = p c := by
  by_cases h : c.toNat < 128
  · rw [trail_of_lt h]
  · exact hp _ _ (le_trail (Nat.le_of_not_lt h)) (Nat.le_of_not_lt h)

theorem ne_of_le {u x : Char} (hx : x.toNat < 128) (hu : 128 ≤ u.toNat) : u ≠ x := by
  rintro rfl
  omega

theorem lt_of_isQuote {c : Char} (h : c = '\'' ∨ c = '"') : c.toNat < 128 := by
  rcases h with rfl | rfl <;> decide

private theorem asciiOnly_eq {x : Char} (hx : x.toNat < 128) : AsciiOnly fun c => c = x := by
  intro u v hu hv
  simp [ne_of_le hx hu, ne_of_le hx hv]

/-- The first byte tells which ASCII character stands there. -/
theorem lead_eq_iff {c x : Char} (hx : x.toNat < 128) : lead c = x ↔ c = x := by
  simpa using (asciiOnly_eq hx).lead c

/-- An ASCII character is recognized by the last unit of a character. -/
theorem trail_eq_iff {c x : Char} (hx : x.toNat < 128) : trail c = x ↔ c = x := by
  simpa using (asciiOnly_eq hx).trail c

/-! ### Access -/

/-- The byte at an offset. -/
def byteAt (text : List Char) (i : Nat) : Checked Char :=
  match (bytes text)[i]? with
  | some u => .ok u
  | none => .error .outOfRange

/-- The part of a list of bytes between two places of it. -/
def part (hay : List Char) (i j : Nat) : Checked (List Char) :=
  if i ≤ j ∧ j ≤ hay.length then .ok ((hay.take j).drop i) else .error .outOfRange

/-- The bytes between two offsets. -/
def byteSlice (text : List Char) (i j : Nat) : Checked (List Char) := part (bytes text) i j

/-- The two parts of a text before and after a byte, when that is not inside a character. -/
def cut? : Nat → List Char → Option (List Char × List Char)
  | 0, s => some ([], s)
  | _ + 1, [] => none
  | i + 1, c :: s =>
    if c.utf8Size ≤ i + 1 then
      (cut? (i + 1 - c.utf8Size) s).map fun (a, b) => (c :: a, b)
    else none

/-- The text between two offsets. -/
def slice (text : List Char) (i j : Nat) : Checked (List Char) :=
  if i ≤ j ∧ j ≤ Text.byteSize text then
    match (cut? j text).bind fun parts => cut? i parts.1 with
    | some (_, s) => .ok s
    | none => .error .offBoundary
  else .error .outOfRange

@[simp] theorem byteSize_nil : Text.byteSize [] = 0 := rfl

@[simp] theorem byteSize_cons (c : Char) (s : List Char) :
    Text.byteSize (c :: s) = c.utf8Size + Text.byteSize s := rfl

@[simp] theorem byteSize_append (a b : List Char) :
    Text.byteSize (a ++ b) = Text.byteSize a + Text.byteSize b := by
  induction a with
  | nil => simp
  | cons c a ih => simp [ih, Nat.add_assoc]

@[simp] theorem bytes_cons (c : Char) (s : List Char) : bytes (c :: s) = units c ++ bytes s := rfl

@[simp] theorem bytes_append (a b : List Char) : bytes (a ++ b) = bytes a ++ bytes b :=
  List.flatMap_append

@[simp] theorem length_bytes (s : List Char) : (bytes s).length = Text.byteSize s := by
  induction s with
  | nil => rfl
  | cons c s ih => simp [ih, length_units]

private theorem cut?_append (a b : List Char) : cut? (Text.byteSize a) (a ++ b) = some (a, b) := by
  induction a with
  | nil => cases b <;> rfl
  | cons c a ih =>
    obtain ⟨k, hk⟩ := Nat.exists_eq_add_one.2
      (Nat.lt_of_lt_of_le c.utf8Size_pos (Nat.le_add_right c.utf8Size (Text.byteSize a)))
    rw [byteSize_cons, List.cons_append, hk, cut?, ← hk, if_pos (Nat.le_add_right _ _),
      Nat.add_sub_cancel_left, ih]
    rfl

/-- A cut at an offset takes the text apart there. -/
theorem cut?_eq_some {i : Nat} {s a b : List Char} (h : cut? i s = some (a, b)) :
    s = a ++ b ∧ i = Text.byteSize a := by
  induction s generalizing i a with
  | nil =>
    cases i with
    | zero => cases h; exact ⟨rfl, rfl⟩
    | succ i => cases h
  | cons c s ih =>
    cases i with
    | zero => cases h; exact ⟨rfl, rfl⟩
    | succ i =>
      rw [cut?] at h
      split at h
      · next hle =>
        obtain ⟨⟨a', b'⟩, hcut, heq⟩ := Option.map_eq_some_iff.1 h
        cases heq
        obtain ⟨rfl, hi⟩ := ih hcut
        refine ⟨rfl, ?_⟩
        rw [byteSize_cons]
        omega
      · cases h

/-! ### Places and offsets -/

/-- The byte at which a place of the text stands. Beyond the end of the text places count on by
one. -/
def offset : List Char → Nat → Nat
  | [], n => n
  | _ :: _, 0 => 0
  | c :: s, n + 1 => c.utf8Size + offset s n

@[simp] theorem offset_zero (s : List Char) : offset s 0 = 0 := by
  cases s <;> rfl

/-- The offset of a place behind a text. -/
theorem offset_append (a s : List Char) (n : Nat) :
    offset (a ++ s) (a.length + n) = Text.byteSize a + offset s n := by
  induction a with
  | nil => simp
  | cons c a ih =>
    rw [List.length_cons, Nat.add_right_comm, List.cons_append, offset, ih, byteSize_cons,
      Nat.add_assoc]

/-- The offset of the end is the size of the text. -/
theorem offset_length (s : List Char) : offset s s.length = Text.byteSize s := by
  simpa using offset_append s [] 0

theorem offset_lt_succ (s : List Char) (n : Nat) : offset s n < offset s (n + 1) := by
  induction s generalizing n with
  | nil => exact Nat.lt_succ_self n
  | cons c s ih =>
    have hpos := c.utf8Size_pos
    cases n with
    | zero => simpa [offset] using hpos
    | succ n => exact Nat.add_lt_add_left (ih n) _

/-- Offsets grow with the places. -/
theorem offset_lt_offset {s : List Char} {m n : Nat} (h : m < n) : offset s m < offset s n := by
  induction h with
  | refl => exact offset_lt_succ s m
  | step _ ih => exact Nat.lt_trans ih (offset_lt_succ s _)

@[simp] theorem offset_lt_iff {s : List Char} {m n : Nat} : offset s m < offset s n ↔ m < n := by
  refine ⟨fun h => Nat.lt_of_not_le fun hle => ?_, offset_lt_offset⟩
  rcases Nat.eq_or_lt_of_le hle with rfl | hlt
  · exact Nat.lt_irrefl _ h
  · exact Nat.lt_asymm h (offset_lt_offset hlt)

@[simp] theorem offset_le_iff {s : List Char} {m n : Nat} : offset s m ≤ offset s n ↔ m ≤ n := by
  rw [← Nat.not_lt, offset_lt_iff, Nat.not_lt]

@[simp] theorem offset_inj {s : List Char} {m n : Nat} : offset s m = offset s n ↔ m = n := by
  rw [Nat.le_antisymm_iff, offset_le_iff, offset_le_iff, ← Nat.le_antisymm_iff]

/-! ### Spans -/

/-- The characters of the text from the place `n` to the place `e` are `s`. -/
def Span (text : List Char) (n e : Nat) (s : List Char) : Prop :=
  ∃ pre post, text = pre ++ (s ++ post) ∧ n = pre.length ∧ e = n + s.length

namespace Span

variable {text s a b : List Char} {n m e : Nat} {c : Char}

/-- The whole text is a span of itself. -/
theorem whole (text : List Char) : Span text 0 text.length text := ⟨[], [], by simp⟩

/-- A span is as long as the distance of its ends. -/
theorem stop_eq (h : Span text n e s) : e = n + s.length := by
  obtain ⟨_, _, _, _, he⟩ := h
  exact he

/-- A span of two texts is a span of either. -/
theorem split (h : Span text n e (a ++ b)) :
    Span text n (n + a.length) a ∧ Span text (n + a.length) e b := by
  obtain ⟨pre, post, rfl, rfl, rfl⟩ := h
  refine ⟨⟨pre, b ++ post, ?_, rfl, rfl⟩, pre ++ a, post, ?_, ?_, ?_⟩
  · simp
  · simp
  · simp
  · simp [Nat.add_assoc]

theorem take (h : Span text n e s) {k : Nat} (hk : k ≤ s.length) :
    Span text n (n + k) (s.take k) := by
  rw [← List.take_append_drop k s] at h
  simpa [Nat.min_eq_left hk] using h.split.1

theorem drop (h : Span text n e s) {k : Nat} (hk : k ≤ s.length) :
    Span text (n + k) e (s.drop k) := by
  rw [← List.take_append_drop k s] at h
  simpa [Nat.min_eq_left hk] using h.split.2

theorem head (h : Span text n e (c :: s)) : Span text n (n + 1) [c] := (split (a := [c]) h).1

theorem tail (h : Span text n e (c :: s)) : Span text (n + 1) e s := (split (a := [c]) h).2

/-- The last character of a span. -/
theorem unsnoc (h : Span text n e (s ++ [c])) :
    ∃ m, e = m + 1 ∧ Span text n m s ∧ Span text m (m + 1) [c] := by
  obtain ⟨hs, hc⟩ := h.split
  have he : e = n + s.length + 1 := hc.stop_eq
  exact ⟨n + s.length, he, hs, he ▸ hc⟩

theorem join (h : Span text n m a) (h' : Span text m e b) : Span text n e (a ++ b) := by
  obtain ⟨pre, post, rfl, rfl, rfl⟩ := h
  obtain ⟨pre', post', heq, hlen, rfl⟩ := h'
  rw [← List.append_assoc] at heq
  obtain ⟨rfl, rfl⟩ := List.append_inj heq (by simpa using hlen)
  exact ⟨pre, post', by simp, rfl, by simp [Nat.add_assoc]⟩

theorem lt (h : Span text n e (c :: s)) : n < e := by
  rw [h.stop_eq, List.length_cons]
  omega

private theorem offset_start (h : Span text n e s) : ∃ pre post, text = pre ++ (s ++ post) ∧
    offset text n = Text.byteSize pre ∧ offset text e = Text.byteSize pre + Text.byteSize s := by
  obtain ⟨pre, post, rfl, rfl, rfl⟩ := h
  refine ⟨pre, post, rfl, ?_, ?_⟩
  · simpa using offset_append pre (s ++ post) 0
  · rw [offset_append]
    simpa using offset_append s post 0

/-- The offset of the end of a span is that of its start and the size of the text. -/
theorem offset_stop (h : Span text n e s) : offset text e = offset text n + Text.byteSize s := by
  obtain ⟨_, _, _, hn, he⟩ := h.offset_start
  rw [hn, he]

private theorem offset_succ (h : Span text n e (c :: s)) :
    offset text (n + 1) = offset text n + c.utf8Size := by
  simpa using h.head.offset_stop

/-- After an ASCII character the next byte is the next place. -/
theorem offset_succ_of_lt (h : Span text n e (c :: s)) (hc : c.toNat < 128) :
    offset text n + 1 = offset text (n + 1) := by
  rw [h.offset_succ, utf8Size_of_lt hc]

/-! #### Reads -/

/-- The bytes of a character are its units. -/
theorem byteAt_units (h : Span text n e (c :: s)) {k : Nat} {u : Char}
    (hu : (units c)[k]? = some u) : byteAt text (offset text n + k) = .ok u := by
  obtain ⟨pre, post, htext, hn, _⟩ := h.offset_start
  have hk : k < (units c).length := (List.getElem?_eq_some_iff.1 hu).1
  rw [byteAt, hn, htext, bytes_append, List.getElem?_append_right (by simp), length_bytes,
    Nat.add_sub_cancel_left, List.cons_append, bytes_cons, List.getElem?_append_left hk, hu]

/-- The byte at a place is the first one of the character there. -/
theorem byteAt_lead (h : Span text n e (c :: s)) : byteAt text (offset text n) = .ok (lead c) := by
  refine byteAt_units h (k := 0) ?_
  rw [lead, ← List.head?_eq_getElem?, List.head?_eq_some_head]

/-- The byte before the next character is the last unit of this one. -/
theorem byteAt_trail (h : Span text n e (c :: s)) :
    byteAt text (offset text (n + 1) - 1) = .ok (trail c) := by
  have hpos := c.utf8Size_pos
  have hk : offset text (n + 1) - 1 = offset text n + (c.utf8Size - 1) := by
    rw [h.offset_succ]
    omega
  rw [hk]
  refine byteAt_units h ?_
  rw [trail, ← length_units, ← List.getLast?_eq_getElem?, List.getLast?_eq_some_getLast]

/-- The bytes of a character beyond ASCII are beyond ASCII. -/
theorem byteAt_high (h : Span text n e (c :: s)) (hc : 128 ≤ c.toNat) {k : Nat}
    (hlo : offset text n ≤ k) (hhi : k < offset text (n + 1)) :
    ∃ u, 128 ≤ u.toNat ∧ byteAt text k = .ok u := by
  obtain ⟨d, rfl⟩ := Nat.exists_eq_add_of_le hlo
  rw [h.offset_succ, Nat.add_lt_add_iff_left, ← length_units] at hhi
  exact ⟨(units c)[d], le_of_mem_units hc (List.getElem_mem hhi),
    h.byteAt_units (List.getElem?_eq_getElem hhi)⟩

/-! #### Cuts -/

/-- **Slices are safe.** A slice with its ends at places of the text gives the characters between
them. -/
theorem slice_eq (h : Span text n e s) : slice text (offset text n) (offset text e) = .ok s := by
  obtain ⟨pre, post, htext, hn, he⟩ := h.offset_start
  have hcut : cut? (Text.byteSize pre + Text.byteSize s) text = some (pre ++ s, post) := by
    rw [htext, ← List.append_assoc, ← byteSize_append]
    exact cut?_append _ _
  rw [slice, hn, he, if_pos, hcut, Option.bind_some, cut?_append]
  rw [htext]
  simp only [byteSize_append]
  omega

/-- The bytes between two places are those of the characters there. -/
theorem byteSlice_eq (h : Span text n e s) :
    byteSlice text (offset text n) (offset text e) = .ok (bytes s) := by
  obtain ⟨pre, post, htext, hn, he⟩ := h.offset_start
  rw [byteSlice, part, hn, he, if_pos, htext]
  · rw [bytes_append, bytes_append, ← length_bytes pre, ← length_bytes s, ← List.length_append,
      ← List.append_assoc, List.take_left, List.drop_left]
  · rw [length_bytes, htext]
    simp only [byteSize_append]
    omega

/-! #### Loops -/

/-- A loop that does nothing at bytes beyond ASCII goes on from the second byte of a character as
from the next place. -/
theorem loop_succ_of_le {σ ρ : Type} {bound : Nat} {step : σ → Nat → Checked (Turn σ ρ)}
    {finish : σ → Nat → ρ} {st : σ} (h : Span text n e (c :: s)) (hto : offset text (n + 1) ≤ bound)
    (hstep : 128 ≤ c.toNat → ∀ k u, byteAt text k = .ok u → 128 ≤ u.toNat →
      step st k = .ok (.next st (k + 1))) :
    loop bound step finish st (offset text n + 1) =
      loop bound step finish st (offset text (n + 1)) := by
  by_cases hc : c.toNat < 128
  · rw [h.offset_succ_of_lt hc]
  · have hle : 128 ≤ c.toNat := Nat.le_of_not_lt hc
    refine loop_pass (offset_lt_succ text n) hto fun k hlo hhi => ?_
    obtain ⟨u, hu, hk⟩ := h.byteAt_high hle (Nat.le_of_succ_le hlo) hhi
    exact hstep hle k u hk hu

/-- A loop that passes over each byte beyond ASCII passes over all of a character behind its lead.
-/
theorem loop_succ {σ ρ : Type} {step : σ → Nat → Checked (Turn σ ρ)} {finish : σ → Nat → ρ} {st : σ}
    (h : Span text n e (c :: s))
    (hstep : 128 ≤ c.toNat → ∀ k u, byteAt text k = .ok u → 128 ≤ u.toNat →
      step st k = .ok (.next st (k + 1))) :
    loop (offset text e) step finish st (offset text n + 1) =
      loop (offset text e) step finish st (offset text (n + 1)) :=
  h.loop_succ_of_le (offset_le_iff.2 h.lt) hstep

end Span

/-- What can be cut out of a text stands between two of its places. -/
theorem exists_span_of_slice {text s : List Char} {i j : Nat} (h : slice text i j = .ok s) :
    ∃ n e, Span text n e s ∧ offset text n = i ∧ offset text e = j := by
  rw [slice] at h
  split at h
  · split at h
    · next pre t hcut =>
      cases h
      obtain ⟨⟨a, post⟩, ha, hs⟩ := Option.bind_eq_some_iff.1 hcut
      obtain ⟨rfl, rfl⟩ := cut?_eq_some ha
      obtain ⟨rfl, rfl⟩ := cut?_eq_some hs
      have hspan : Span (pre ++ s ++ post) pre.length (pre.length + s.length) s :=
        ⟨pre, post, List.append_assoc _ _ _, rfl, rfl⟩
      have hstart : offset (pre ++ s ++ post) pre.length = Text.byteSize pre := by
        simpa using offset_append pre (s ++ post) 0
      refine ⟨_, _, hspan, hstart, ?_⟩
      rw [hspan.offset_stop, hstart, byteSize_append]
    · cases h
  · cases h

/-- An ASCII character stands at a place exactly if its byte does. -/
theorem byteAt_offset_iff {text : List Char} {n : Nat} (hn : n < text.length) {x : Char}
    (hx : x.toNat < 128) : byteAt text (offset text n) = .ok x ↔ text[n]? = some x := by
  have hspan := (Span.whole text).drop (Nat.le_of_lt hn)
  rw [List.drop_eq_getElem_cons hn, Nat.zero_add] at hspan
  rw [hspan.byteAt_lead, List.getElem?_eq_getElem hn, Except.ok.injEq, lead_eq_iff hx,
    Option.some.injEq]

end ComponentAudit.Offset
