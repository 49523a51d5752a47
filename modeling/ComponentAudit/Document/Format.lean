import ComponentAudit.Document.Toml
import ComponentAudit.Document.Yaml
import ComponentAudit.Path.Basic

/-!
# Formats of documents

Configurations and catalogs are written in one of two formats, which the extension of the file
tells apart.
-/

namespace ComponentAudit

/-- The formats in which configurations and catalogs are written. -/
inductive DocumentFormat where
  | toml
  | yaml
  deriving DecidableEq, Repr

/-- The format of a file: YAML by its extension, and TOML otherwise. -/
def DocumentFormat.ofPath (p : Path) : DocumentFormat :=
  if p.extension? = some "yaml" || p.extension? = some "yml" then .yaml else .toml

/-- Reads a document. -/
def DocumentFormat.read? : DocumentFormat → String → Option Document
  | .toml => Toml.read?
  | .yaml => Yaml.read?

end ComponentAudit
