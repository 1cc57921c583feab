import ApiAssembly.Value.Basic

/-!
# Sections of a document

A fragment contributes to the sections of the document that a build merges; all its
other keys are dropped.
-/

namespace ApiAssembly.Document

/-- The sections of a document to which fragments contribute. -/
def mainSections : List String :=
  ["servers", "paths", "components", "security", "tags"]

/-- The sections of the components to which fragments contribute. -/
def componentSections : List String :=
  ["schemas", "responses", "parameters", "examples", "requestBodies", "headers",
    "securitySchemes", "links", "callbacks"]

/-- The members whose keys are among the given ones. -/
def keepSections (sections : List String) (members : Members) : Members :=
  members.filter fun member => sections.contains member.1

/-- The components of a fragment without foreign sections. -/
def normalizeComponents : Value → Value
  | .object components => .object (keepSections componentSections components)
  | other => other

/-- A fragment without foreign sections. -/
def normalize (fragment : Members) : Members :=
  Entries.update "components" normalizeComponents (keepSections mainSections fragment)

end ApiAssembly.Document
