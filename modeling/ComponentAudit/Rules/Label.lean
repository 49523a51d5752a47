import ComponentAudit.Catalog.Resolve
import ComponentAudit.Usage.Basic

/-!
# Labels by context

Some components label the controls that they enclose or that follow closely. `LabelIndex` holds
the providers of one file, once for all its usages: a usage is labelled when the usage around it is
a provider, or when the nearest provider before it is not too many lines above.
-/

namespace ComponentAudit

/-- Whether a usage labels controls: its component does, and one of the props that carry the label
is present, if there are such. -/
def providesLabel (catalog : Catalog) (u : Usage) : Bool :=
  match catalog.get? u.componentName with
  | none => false
  | some spec =>
    spec.access.providesLabel &&
      (spec.access.labelProps.isEmpty || (u.firstProp? spec.access.labelProps).isSome)

/-- The order of places: by line, then by column. -/
def placeLt (a b : Nat × Nat) : Bool := a.1 < b.1 || (a.1 = b.1 && a.2 < b.2)

/-- The place of a usage. -/
def Usage.start (u : Usage) : Nat × Nat := (u.lineNumber, u.column)

/-- The label providers of a file. -/
structure LabelIndex where
  /-- Whether the usage at each index provides a label. -/
  provides : List Bool
  /-- Places of the providers, ascending. -/
  starts : List (Nat × Nat)
  deriving DecidableEq, Repr

namespace LabelIndex

/-- The providers among the usages of a file. -/
def ofUsages (catalog : Catalog) (usages : List Usage) : LabelIndex where
  provides := usages.map (providesLabel catalog)
  starts := ((usages.filter (providesLabel catalog)).map Usage.start).mergeSort fun a b =>
    !placeLt b a

/-- Whether the context labels a usage: the usage around it is a provider, or the closest provider
that starts before it is at most `proximity` lines above. -/
def labels (index : LabelIndex) (u : Usage) (proximity : Nat) : Bool :=
  u.parent.any (fun p => index.provides[p]?.getD false) ||
    (index.starts.takeWhile fun s => placeLt s u.start).getLast?.any fun s =>
      u.lineNumber - s.1 ≤ proximity

end LabelIndex

end ComponentAudit
