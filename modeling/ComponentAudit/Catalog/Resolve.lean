import ComponentAudit.Catalog.Name
import ComponentAudit.Catalog.Spec

/-!
# Resolved catalogs

`CatalogFile.resolve` flattens one version of a catalog file: the versions that it is based on are
followed to the first one, and components of later versions replace those of earlier ones. The
chain of versions is finite, because each version on it is taken out of those still to be met.
-/

namespace ComponentAudit

/-- What is wrong with a catalog file. -/
inductive CatalogFault where
  /-- The file cannot be read as a catalog. -/
  | unreadable (origin detail : String)
  /-- A version is based on itself, by way of another. -/
  | circular (version through : String)
  /-- A version is based on one that is not declared. -/
  | unknownBase (version base : String)
  /-- The name of a component is not a kebab-case name with the marker. -/
  | misnamed (component version marker : String)
  deriving DecidableEq, Repr

/-- The wording of a fault. -/
def CatalogFault.message : CatalogFault → String
  | .unreadable origin detail => s!"{origin}: {detail}"
  | .circular version through => s!"version '{version}' extends itself through '{through}'"
  | .unknownBase version base => s!"version '{version}' extends unknown version '{base}'"
  | .misnamed component version marker =>
    s!"component '{component}' in version '{version}' does not follow the '{marker}' " ++
      "naming convention"

/-- Why a version cannot be resolved. -/
inductive ResolveError where
  | unknownVersion (requested : String) (available : List String)
  | fault (f : CatalogFault)
  deriving DecidableEq, Repr

/-- A catalog flattened for one version. -/
structure Catalog where
  name : String
  marker : String
  version : String
  components : NameTable ComponentSpec
  access : AccessVocabulary
  deriving DecidableEq

namespace Catalog

/-- The component of a name. -/
def get? (c : Catalog) (name : String) : Option ComponentSpec := c.components.get? name

/-- Whether there is a component of that name. -/
def contains (c : Catalog) (name : String) : Bool := c.components.contains name

/-- The components in name order. -/
def componentList (c : Catalog) : List ComponentSpec := c.components.values

/-- The catalog name of an identifier as written. -/
def canonicalName? (c : Catalog) (raw : String) : Option String := canonicalNameOf? c.marker raw

end Catalog

/-! ### The chain of versions -/

/-- A version with its name. -/
abbrev NamedVersion := String × VersionSpec

/-- The versions of other names. -/
def versionsWithout (name : String) (versions : List NamedVersion) : List NamedVersion :=
  versions.filter fun e => !(e.1 == name)

private theorem length_versionsWithout_lt {name : String} {v : VersionSpec} :
    ∀ {l : List NamedVersion}, l.lookup name = some v →
      (versionsWithout name l).length < l.length
  | [], h => by simp at h
  | (k, w) :: rest, h => by
    by_cases hk : k = name
    · have := List.length_filter_le (fun e : NamedVersion => !(e.1 == name)) rest
      simp only [versionsWithout, hk, List.filter_cons, beq_self_eq_true, Bool.not_true,
        Bool.false_eq_true, if_false, List.length_cons]
      omega
    · have hl : rest.lookup name = some v := by
        have hne : (name == k) = false := by simpa using fun h => hk h.symm
        simpa [List.lookup_cons, hne] using h
      have := length_versionsWithout_lt hl
      simpa [versionsWithout, List.filter_cons, hk] using this

/-- The versions from `name` on to the first one, nearest first. `remaining` are the declared
versions not yet met, `start` is the version asked for and `last` the one met before `name`. -/
def followBases (declared : String → Bool) (start last name : String)
    (remaining : List NamedVersion) : Except CatalogFault (List NamedVersion) :=
  match _h : remaining.lookup name with
  | none =>
    -- A declared version that no longer remains was met before.
    if declared name then .error (.circular start name) else .error (.unknownBase last name)
  | some v =>
    match v.base with
    | none => .ok [(name, v)]
    | some base =>
      (followBases declared start name base (versionsWithout name remaining)).map
        ((name, v) :: ·)
termination_by remaining.length
decreasing_by exact length_versionsWithout_lt _h

namespace CatalogFile

/-- Names of the declared versions. -/
def versionNames (f : CatalogFile) : List String := f.versions.keys

/-- The version that a request means: `latest` is the default version unless one is named so. -/
def versionKey (f : CatalogFile) (requested : String) : String :=
  if requested = "latest" && !f.versions.contains "latest" then f.defaultVersion else requested

/-- The versions that make up the given one, nearest first. -/
def versionChain (f : CatalogFile) (key : String) : Except CatalogFault (List NamedVersion) :=
  followBases f.versions.contains key key key f.versions.entries

/-- Adds a component of a version, in place of the one of its name. -/
def addComponent (f : CatalogFile) (version : String) (components : NameTable ComponentSpec)
    (c : ComponentSpec) : Except CatalogFault (NameTable ComponentSpec) :=
  if canonicalNameOf? f.marker c.name = some c.name then .ok (components.insert c.name c)
  else .error (.misnamed c.name version f.marker)

/-- Adds the components of a version. -/
def addVersion (f : CatalogFile) (components : NameTable ComponentSpec) (v : NamedVersion) :
    Except CatalogFault (NameTable ComponentSpec) :=
  v.2.components.foldlM (f.addComponent v.1) components

/-- The components of a chain of versions, nearest first: a nearer version replaces those of the
versions behind it. -/
def chainComponents (f : CatalogFile) (chain : List NamedVersion) :
    Except CatalogFault (NameTable ComponentSpec) :=
  -- From the first version on, so that the nearest one comes last and stays.
  chain.reverse.foldlM f.addVersion {}

/-- The catalog of the requested version. -/
def resolve (f : CatalogFile) (requested : String) : Except ResolveError Catalog :=
  let key := f.versionKey requested
  if !f.versions.contains key then .error (.unknownVersion requested f.versionNames)
  else match f.versionChain key with
    | .error e => .error (.fault e)
    | .ok chain =>
      match f.chainComponents chain with
      | .error e => .error (.fault e)
      | .ok components => .ok {
          name := f.name.getD "design system"
          marker := f.marker
          version := key
          components
          access := f.access }

end CatalogFile

end ComponentAudit
