/-!
# UTF-8

Decodes bytes to characters. Bytes that are no character come as `none`: the longest part of a
character that the bytes begin with, or a single byte if they begin with none. `decodeLossy` puts
the replacement character in their place, `decode?` accepts none of them.
-/

namespace ComponentAudit.Utf8

/-- What the first byte of a character says about the rest of it. -/
structure Lead where
  /-- Number of further bytes. -/
  tail : Nat
  /-- Least value of the second byte. -/
  least : Nat
  /-- Greatest value of the second byte. -/
  greatest : Nat
  /-- The bits of the character that the first byte holds. -/
  bits : Nat
  deriving DecidableEq, Repr

/-- The first byte of a character of two to four bytes. The bounds of the second byte rule out
characters in more bytes than they need, surrogates, and numbers beyond the last character. -/
def lead? (b : Nat) : Option Lead :=
  if 0xC2 ≤ b && b ≤ 0xDF then some ⟨1, 0x80, 0xBF, b - 0xC0⟩
  else if b = 0xE0 then some ⟨2, 0xA0, 0xBF, 0⟩
  else if b = 0xED then some ⟨2, 0x80, 0x9F, 0xD⟩
  else if 0xE1 ≤ b && b ≤ 0xEF then some ⟨2, 0x80, 0xBF, b - 0xE0⟩
  else if b = 0xF0 then some ⟨3, 0x90, 0xBF, 0⟩
  else if 0xF1 ≤ b && b ≤ 0xF3 then some ⟨3, 0x80, 0xBF, b - 0xF0⟩
  else if b = 0xF4 then some ⟨3, 0x80, 0x8F, 4⟩
  else none

/-- The first of at most `n` bytes that continue a character, the next one in the given bounds. -/
def tailBytes (least greatest : Nat) : Nat → List UInt8 → List Nat
  | n + 1, b :: s =>
    if least ≤ b.toNat && b.toNat ≤ greatest then b.toNat :: tailBytes 0x80 0xBF n s else []
  | _, _ => []

/-- The character that begins with the byte `b` and goes on in `s`, if there is one, and how many
bytes of `s` belong to it or to the part of it that is there. -/
def unit (b : UInt8) (s : List UInt8) : Option Char × Nat :=
  if b.toNat < 0x80 then (some (Char.ofNat b.toNat), 0)
  else match lead? b.toNat with
    | none => (none, 0)
    | some l =>
      let tail := tailBytes l.least l.greatest l.tail s
      if tail.length = l.tail then
        (some (Char.ofNat (tail.foldl (fun n t => n * 64 + t % 64) l.bits)), l.tail)
      else (none, tail.length)

/-- The units of the bytes after the first `skip`. -/
def unitsWalk : Nat → List UInt8 → List (Option Char)
  | _, [] => []
  | skip + 1, _ :: s => unitsWalk skip s
  | 0, b :: s => (unit b s).1 :: unitsWalk (unit b s).2 s

/-- The units of the bytes. -/
def units (bytes : List UInt8) : List (Option Char) := unitsWalk 0 bytes

/-- The text of the bytes, with replacement characters for what is none. -/
def decodeLossy (bytes : List UInt8) : String :=
  String.ofList ((units bytes).map fun c => c.getD '\uFFFD')

/-- The text of the bytes, if they are one. -/
def decode? (bytes : List UInt8) : Option String := ((units bytes).mapM id).map String.ofList

end ComponentAudit.Utf8
