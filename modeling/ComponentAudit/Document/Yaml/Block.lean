import ComponentAudit.Document.Yaml.Plain

/-!
# Block scalars of YAML

A scalar in a block of its own, which is indented. In a literal block the line breaks stay; in a
folded one a break between two lines that are not indented further becomes a blank, and of several
the first is dropped. The head of the block says what becomes of the breaks at its end and how far
it is indented, if the first line of the block does not show that.
-/

namespace ComponentAudit.Yaml

/-- What becomes of the line breaks at the end of a block. -/
inductive Chomping where
  /-- None of them stays. -/
  | strip
  /-- The first stays. -/
  | clip
  /-- All of them stay. -/
  | keep
  deriving DecidableEq, Repr

/-- What the head of a block says. -/
structure BlockHead where
  chomping : Chomping := .clip
  /-- How much further than its context the block is indented. -/
  increment : Option Nat := none
  deriving DecidableEq, Repr

/-- The mark of a chomping. -/
def Chomping.ofChar? : Char → Option Chomping
  | '+' => some .keep
  | '-' => some .strip
  | _ => none

/-- The head at the start of the text and its length: a mark and a digit from one to nine, in either
order, each of which may be left out. A zero is an error. -/
def blockHead? (s : List Char) : Option (BlockHead × Nat) :=
  let digit? : List Char → Option Nat := fun s =>
    (s.head?.filter Char.isDigit).map fun c => c.toNat - 48
  let chomping? : List Char → Option Chomping := fun s => s.head?.bind Chomping.ofChar?
  let head : BlockHead × Nat := match chomping? s, digit? s with
    | some chomping, _ =>
      match digit? (s.drop 1) with
      | some n => (⟨chomping, some n⟩, 2)
      | none => (⟨chomping, none⟩, 1)
    | none, some n =>
      match chomping? (s.drop 1) with
      | some chomping => (⟨chomping, some n⟩, 2)
      | none => (⟨.clip, some n⟩, 1)
    | none, none => ({}, 0)
  if head.1.increment = some 0 then none else some head

/-- The place of the first line that is not empty, the breaks before it, last first, and the largest
column that was reached. Blanks are passed up to the column `limit`, if there is one; a tab must not
stand there. -/
def blockBreaks? (limit : Option Nat) (breaks : List Char) (reached : Nat) :
    (fuel : Nat) → Place → Option (Place × List Char × Nat)
  | 0, _ => none
  | fuel + 1, p =>
    let blanks := (p.rest.takeWhile (· = ' ')).length
    let p := p.skip ((limit.map fun n => min blanks (n - p.column)).getD blanks)
    let reached := max reached p.column
    let isShort := limit.all fun n => p.column < n
    match p.rest with
    | [] => some (p, breaks, reached)
    | c :: _ =>
      if c = '\t' && isShort then none
      else if isBreak c then blockBreaks? limit (c :: breaks) reached fuel p.next
      else some (p, breaks, reached)

/-- What has been read of a block. -/
structure BlockText where
  /-- The text, last character first. -/
  done : List Char := []
  /-- The break behind the last line. -/
  break? : Option Char := none
  /-- The breaks after it, last first. -/
  more : List Char := []
  /-- Whether the last line began with a blank. -/
  indented : Bool := false

/-- The text with the breaks before a further line, which may be indented. -/
def BlockText.join (folded : Bool) (b : BlockText) (indented : Bool) : List Char :=
  if folded && b.break? = some '\n' && !b.indented && !indented then
    if b.more = [] then ' ' :: b.done else b.more ++ b.done
  else b.more ++ b.break?.toList ++ b.done

/-- The lines of a block that is indented by `indent`. -/
def blockLines? (folded : Bool) (indent : Nat) (b : BlockText) :
    (fuel : Nat) → Place → Option (BlockText × Place)
  | 0, _ => none
  | fuel + 1, p =>
    if p.column ≠ indent || p.rest = [] then some (b, p)
    else
      let indented := p.rest.head?.any isBlank
      let line := p.rest.takeWhile (!isBreak ·)
      let p := p.skip line.length
      (blockBreaks? (some indent) [] 0 fuel p.next).bind fun (after, more, _) =>
        blockLines? folded indent
          ⟨line.reverse ++ b.join folded indented, p.rest.head?, more, indented⟩ fuel after

/-- The text of a block with the breaks at its end that stay. -/
def BlockText.finish (b : BlockText) (chomping : Chomping) : List Char :=
  let text := match chomping with
    | .strip => b.done
    | .clip => b.break?.toList ++ b.done
    | .keep => b.more ++ b.break?.toList ++ b.done
  text.reverse

/-- The block scalar at a place, which begins with its mark, in a context that is indented by
`indent`. -/
def block? (indent : Int) (p : Place) : Option Scanned := do
  let folded := p.rest.head? = some '>'
  let (head, length) ← blockHead? (p.rest.drop 1)
  let p ← (p.skip (1 + length)).finishLine?
  let fuel := p.rest.length + 1
  let given := head.increment.map fun n => (max indent 0).toNat + n
  let (p, breaks, reached) ← blockBreaks? given [] 0 fuel p
  let column := given.getD (max reached (max (indent + 1) 1).toNat)
  let (b, p) ← blockLines? folded column { more := breaks } fuel p
  return ⟨b.finish head.chomping, p, true⟩

end ComponentAudit.Yaml
