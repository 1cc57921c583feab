import ApiAssembly.Document.Collection
import ApiAssembly.Value.Merge
import ApiAssembly.Value.Reference

/-!
# Assembling a document

The fragments are merged in order into a document that has a version, a title and
nothing else.  Then the schemas that the document refers to and does not define are taken
from the collection, round after round, since a schema may refer to further ones.  A name
that the collection does not know is reported once.
-/

namespace ApiAssembly.Document

/-- The version of the format in which documents are written. -/
def formatVersion : String := "3.0.0"

def seed (info : Info) : Members :=
  [("openapi", .string formatVersion), ("info", info.toValue)]

def Collection.merged (collection : Collection) : Members :=
  Value.mergeAll (seed collection.info) collection.fragments

/-- The schemas that a document defines, if it has a place for them. -/
def schemas? (document : Members) : Option Members :=
  (Entries.get? "components" document).bind fun components =>
    (components.member? "schemas").bind Value.object?

def defines (document : Members) (name : String) : Bool :=
  (schemas? document).any (Entries.contains name)

/-- Components with a place for schemas, unless something else is there. -/
def openComponents : Value → Value
  | .object components =>
    if Entries.contains "schemas" components then .object components
    else .object (components ++ [("schemas", .object [])])
  | other => other

/-- A document with a place for schemas, unless something else is there. -/
def openSchemas (document : Members) : Members :=
  if Entries.contains "components" document then
    Entries.update "components" openComponents document
  else document ++ [("components", .object [("schemas", .object [])])]

/-- Add a schema to components that have a place for it. -/
def installInComponents (name : String) (schema : Value) : Value → Value
  | .object components =>
    .object (Entries.update "schemas"
      (fun schemas =>
        match schemas with
        | .object members => .object (Entries.put name schema members)
        | other => other)
      components)
  | other => other

/-- Add a schema to a document that has a place for it. -/
def install (name : String) (schema : Value) (document : Members) : Members :=
  Entries.update "components" (installInComponents name schema) document

/-- A document to which schemas are being added, and the names that cannot be provided. -/
structure Resolution where
  document : Members
  missing : List String := []

namespace Resolution

/-- The names that the document refers to without a definition, apart from those that
cannot be provided. -/
def needed (resolution : Resolution) : List String :=
  (Value.object resolution.document).schemaReferences.filter fun name =>
    !defines resolution.document name && !resolution.missing.contains name

/-- Provide the schema of a name, or count the name as missing. -/
def provide (pool : String → Option Value) (resolution : Resolution) (name : String) :
    Resolution :=
  let document := openSchemas resolution.document
  match pool name, schemas? document with
  | some schema, some _ => { resolution with document := install name schema document }
  | _, _ => ⟨document, resolution.missing ++ [name]⟩

/-- Provide the names that are needed, for at most the given number of rounds. -/
def settle (pool : String → Option Value) : Nat → Resolution → Resolution
  | 0, resolution => resolution
  | rounds + 1, resolution =>
    match resolution.needed with
    | [] => resolution
    | names => settle pool rounds (names.foldl (provide pool) resolution)

end Resolution

/-- The resolution of a collection's document.  Every round but the last provides a schema of
the collection that was not provided before, which bounds the number of rounds. -/
def Collection.resolution (collection : Collection) : Resolution :=
  Resolution.settle collection.schema?
    (collection.typedefs.length + collection.models.length + 1) ⟨collection.merged, []⟩

structure Assembly where
  document : Value
  errors : List Issue
  warnings : List Issue

def Assembly.hasErrors (assembly : Assembly) : Bool :=
  !assembly.errors.isEmpty

/-- Build the document of a collection.  Names that are missing come behind the errors
recorded before. -/
def Collection.assemble (collection : Collection) : Assembly :=
  let resolution := collection.resolution
  { document := .object resolution.document
    errors := collection.errors ++ resolution.missing.map fun name => ⟨.missingSchema name, none⟩
    warnings := collection.warnings }

def assemble (contributions : List Contribution) : Assembly :=
  (Collection.ofContributions contributions).assemble

/-- What comes from outside a program: fragments as YAML texts, texts with comments, and the
schemas of models. -/
structure Sources where
  yaml : List String := []
  comments : List String := []
  models : Members := []

def Sources.contributions (sources : Sources) : List Contribution :=
  sources.yaml.map .yaml ++ sources.comments.map .comments ++
    sources.models.map fun model => .model model.1 model.2

end ApiAssembly.Document
