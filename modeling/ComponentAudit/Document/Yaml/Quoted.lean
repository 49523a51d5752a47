import ComponentAudit.Decimal.Reading
import ComponentAudit.Document.Yaml.Plain

/-!
# Quoted scalars of YAML

Scalars in single quotes, where a quote is written twice, and in double quotes, where a backslash
begins an escape. Both may go over several lines, with the gaps of plain scalars; a document mark
must not begin such a line. An escaped line break leaves nothing.
-/

namespace ComponentAudit.Yaml

/-- A character given by so many hexadecimal digits, and their number and that of the letter before
them. -/
def hexEscape? (count : Nat) (s : List Char) : Option (Char × Nat) :=
  if (s.take count).length = count then
    (Decimal.radixValue? 16 (s.take count)).bind fun n =>
      if n.isValidChar then some (Char.ofNat n, count + 1) else none
  else none

/-- The character that the text behind a backslash stands for, and how long that text is. -/
def escape? : List Char → Option (Char × Nat)
  | [] => none
  | c :: s =>
    match c with
    | '0' => some ('\x00', 1)
    | 'a' => some ('\x07', 1)
    | 'b' => some ('\x08', 1)
    | 't' => some ('\t', 1)
    | '\t' => some ('\t', 1)
    | 'n' => some ('\n', 1)
    | 'v' => some ('\x0b', 1)
    | 'f' => some ('\x0c', 1)
    | 'r' => some ('\r', 1)
    | 'e' => some ('\x1b', 1)
    | ' ' => some (' ', 1)
    | '"' => some ('"', 1)
    | '/' => some ('/', 1)
    | '\\' => some ('\\', 1)
    | 'N' => some (Char.ofNat 0x85, 1)
    | '_' => some (Char.ofNat 0xA0, 1)
    | 'L' => some (Char.ofNat 0x2028, 1)
    | 'P' => some (Char.ofNat 0x2029, 1)
    | 'x' => hexEscape? 2 s
    | 'u' => hexEscape? 4 s
    | 'U' => hexEscape? 8 s
    | _ => none

/-- The rest of a scalar in the given quotes. `skip` characters have been read already; `done` holds
what the scalar has so far, last character first, and `gap` the gap since then. -/
def quotedRest? (quote : Char) (done : List Char) (gap : Gap) (skip line column : Nat) :
    List Char → Option Scanned
  | [] => none
  | c :: s =>
    match skip with
    | skip + 1 =>
      if isBreak c then quotedRest? quote done gap skip (line + 1) 0 s
      else quotedRest? quote done gap skip line (column + 1) s
    | 0 =>
      if isBreak c then quotedRest? quote done (gap.push c) 0 (line + 1) 0 s
      else if isBlank c then quotedRest? quote done (gap.push c) 0 line (column + 1) s
      else if column = 0 && beginsWithDocumentMark (c :: s) then none
      else
        let done := gap.text ++ done
        if c = quote then
          if quote = '\'' && s.head? = some '\'' then
            quotedRest? quote ('\'' :: done) {} 1 line (column + 1) s
          else some ⟨done.reverse, ⟨s, line, column + 1⟩, false⟩
        else if c = '\\' && quote = '"' then
          if s.head?.any isBreak then quotedRest? quote done .escaped 1 line (column + 1) s
          else match escape? s with
            | none => none
            | some (e, length) => quotedRest? quote (e :: done) {} length line (column + 1) s
        else quotedRest? quote (c :: done) {} 0 line (column + 1) s

/-- The quoted scalar at a place, which begins with its quote. -/
def quoted? (p : Place) : Option Scanned :=
  match p.rest with
  | [] => none
  | quote :: s => quotedRest? quote [] {} 0 p.line (p.column + 1) s

end ComponentAudit.Yaml
