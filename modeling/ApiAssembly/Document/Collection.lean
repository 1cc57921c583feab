import ApiAssembly.Comment.Parse
import ApiAssembly.Document.Issue
import ApiAssembly.Document.Section
import ApiAssembly.Typedef.OfComment
import ApiAssembly.Yaml.Read

/-!
# Collecting contributions

A document is built from contributions: fragments of the document, type definitions in
comments, and the schemas of models.  They are collected in the order in which they
come; what is wrong with one of them is recorded, and the others count.
-/

namespace ApiAssembly.Document

open Comment (Block)

structure Info where
  title : String := "openapi-from-fragments"
  version : String := "1.0.0"
deriving DecidableEq

/-- The section of a document that holds its title and version. -/
def Info.toValue (info : Info) : Value :=
  .object [("title", .string info.title), ("version", .string info.version)]

inductive Contribution where
  | info (info : Info)
  | yaml (text : String)
  | comments (text : String)
  | fragment (members : Members)
  | model (name : String) (schema : Value)

/-- What has been collected for a document. -/
structure Collection where
  info : Info := {}
  /-- The fragments, without foreign sections. -/
  fragments : List Members := []
  typedefs : Members := []
  models : Members := []
  errors : List Issue := []
  warnings : List Issue := []

namespace Collection

def record (collection : Collection) (cause : IssueCause) (source : String) : Collection :=
  { collection with errors := collection.errors ++ [⟨cause, some source⟩] }

def warn (collection : Collection) (cause : IssueCause) (source : String) : Collection :=
  { collection with warnings := collection.warnings ++ [⟨cause, some source⟩] }

def addFragment (collection : Collection) (members : Members) : Collection :=
  { collection with fragments := collection.fragments ++ [normalize members] }

/-- Add the fragment that a YAML text describes; a text without content adds nothing. -/
def addYaml (collection : Collection) (text : String) : Collection :=
  match Yaml.read? text with
  | some (.object members) => collection.addFragment members
  | some .null => collection
  | some other => collection.record (.fragmentKind other.kind) text
  | none => collection.record .malformedFragment text

def fragmentTitle : String := "openapi"

/-- Add the fragment in a comment's tag; an empty mapping adds nothing. -/
def addEmbedded (source : String) (collection : Collection) (text : String) : Collection :=
  match Yaml.read? text with
  | some (.object []) => collection
  | some (.object members) => collection.addFragment members
  | some other => collection.record (.embeddedKind other.kind) source
  | none => collection.record .malformedEmbedding source

def addTypedef (source : String) (collection : Collection) (defined : Typedef) :
    Collection :=
  let reported := defined.problems.foldl
    (fun collected error => collected.record (.declaration defined.name error) source)
    collection
  let warned :=
    match defined.rootTypeError with
    | some error => reported.warn (.rootType defined.name error) source
    | none => reported
  { warned with
    typedefs := Entries.put defined.name defined.schema.toValue warned.typedefs }

def addDefinition (source : String) (collection : Collection) (block : Block) : Collection :=
  match Typedef.ofBlock? block with
  | none => collection
  | some (.error error) => collection.record (.definition error) source
  | some (.ok defined) => collection.addTypedef source defined

/-- The texts of the fragments in a comment. -/
def embeddedTexts (block : Block) : List String :=
  (block.tags.filter fun tag => tag.title = fragmentTitle).map fun tag => tag.description

/-- Add the fragments and the type definition of a comment.  A comment with faulty tags is
recorded and otherwise left out. -/
def addBlock (source : String) (collection : Collection) (block : Block) : Collection :=
  if block.problems = [] then
    ((embeddedTexts block).foldl (addEmbedded source) collection).addDefinition source block
  else collection.record (.faultyComment block.problems) source

def addComments (collection : Collection) (text : String) : Collection :=
  (Comment.parse text.toList).foldl (addBlock text) collection

def addModel (collection : Collection) (name : String) (schema : Value) : Collection :=
  { collection with models := Entries.put name schema collection.models }

def add (collection : Collection) : Contribution → Collection
  | .info info => { collection with info }
  | .yaml text => collection.addYaml text
  | .comments text => collection.addComments text
  | .fragment members => collection.addFragment members
  | .model name schema => collection.addModel name schema

def ofContributions (contributions : List Contribution) : Collection :=
  contributions.foldl add {}

/-- The schema that has been collected under a name; type definitions go before models. -/
def schema? (collection : Collection) (name : String) : Option Value :=
  (Entries.get? name collection.typedefs).or (Entries.get? name collection.models)

@[simp] theorem ofContributions_nil : ofContributions [] = {} := rfl

theorem ofContributions_concat (contributions : List Contribution) (last : Contribution) :
    ofContributions (contributions ++ [last]) = (ofContributions contributions).add last := by
  simp [ofContributions]

end Collection

end ApiAssembly.Document
