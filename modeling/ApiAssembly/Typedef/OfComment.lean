import ApiAssembly.Comment.Basic
import ApiAssembly.Json.Reader
import ApiAssembly.Typedef.Error
import ApiAssembly.Typedef.Path

/-!
# Type definitions in comments

A comment with a tag `typedef` defines a type.  Its tags `property` declare the parts
of the type, in order: a dotted name attaches to the part that an earlier declaration
created, as a property or, below an array, as the next item.  Its tags
`propertyOpenapi` set further keywords on declared parts.  A declaration that fails is
reported and skipped.
-/

namespace ApiAssembly

open Comment (Tag Block)

/-- A defined type: its name and its schema. -/
structure Typedef where
  name : String
  schema : Schema
  /-- What was wrong with the declarations that were skipped, in order. -/
  problems : List TypedefError
  /-- Why the type itself was taken for that of all objects, if it was. -/
  rootTypeError : Option ConversionError

namespace Typedef

def typedefTitle : String := "typedef"

def propertyTitle : String := "property"

def extensionTitle : String := "propertyOpenapi"

/-- The value of a default: that of its text as JSON, and the text itself otherwise. -/
def defaultValue (text : String) : Value :=
  (Json.read? text).getD (.string text)

def propertySchema (tag : Tag) : Except ConversionError Schema := do
  let schema ← if tag.typeText = "" then pure {} else Schema.ofText tag.typeText
  return { schema with
    description := if tag.description = "" then schema.description else some tag.description
    defaultValue := (tag.defaultText.map defaultValue).or schema.defaultValue
    nullable := tag.optional || schema.nullable }

/-- The name of the part to which a dotted name attaches, and the name within that part. -/
def splitName (name : String) : String × String :=
  match Text.splitLast '.' name.toList with
  | some (parent, leaf) => (String.ofList parent, String.ofList leaf)
  | none => ("", name)

/-- An array schema with a further item in a place of its own. -/
def attachItem (property : Schema) (optional : Bool) (items : List Schema) (parent : Schema) :
    Schema :=
  { parent with
    items := .tuple (items ++ [property])
    minItems := if optional then parent.minItems else some (parent.minItems.getD 0 + 1)
    maxItems := some (items.length + 1) }

def attachProperty (name : String) (property : Schema) (optional : Bool) (parent : Schema) :
    Schema :=
  { parent with
    properties := some (Entries.put name property (parent.properties.getD []))
    required :=
      if optional || parent.required.contains name then parent.required
      else parent.required ++ [name] }

/-- The schema so far, and the paths to the declared parts by their full names. -/
structure Progress where
  root : Schema
  declared : Entries (List Step) := []
  problems : List TypedefError := []

/-- The path to the part to which a declaration attaches. -/
def Progress.parentPath? (progress : Progress) (parent : String) : Option (List Step) :=
  if parent = "" then some [] else Entries.get? parent progress.declared

def Progress.declare (progress : Progress) (tag : Tag) : Except TypedefError Progress := do
  let (parentName, leaf) := splitName tag.name
  let undeclared := TypedefError.undeclaredParent tag.name parentName
  let some path := progress.parentPath? parentName | throw undeclared
  let property ← (propertySchema tag).mapError .conversion
  let some parent := progress.root.at? path | throw undeclared
  let (step, attach) ←
    if parent.isArray then
      match parent.items with
      | .each _ => throw (.homogeneousArrayParent tag.name parentName)
      | .absent => pure (Step.item 0, attachItem property tag.optional [])
      | .tuple items => pure (Step.item items.length, attachItem property tag.optional items)
    else pure (Step.property leaf, attachProperty leaf property tag.optional)
  return { progress with
    root := progress.root.modifyAt attach path
    declared := Entries.put tag.name (path ++ [step]) progress.declared }

def Progress.extend (progress : Progress) (tag : Tag) : Except TypedefError Progress :=
  if tag.name = "" then .ok progress
  else
    let unknown := TypedefError.unknownExtensionTarget tag.typeText tag.name
    match Entries.get? tag.typeText progress.declared with
    | none => .error unknown
    | some path =>
      match progress.root.at? path with
      | none => .error unknown
      | some _ =>
        let set (part : Schema) : Schema :=
          { part with extensions := Entries.put tag.name tag.description part.extensions }
        .ok { progress with root := progress.root.modifyAt set path }

/-- Make what a tag says part of the schema; tags of other titles say nothing. -/
def Progress.apply (progress : Progress) (tag : Tag) : Except TypedefError Progress :=
  if tag.title = propertyTitle then progress.declare tag
  else if tag.title = extensionTitle then progress.extend tag
  else .ok progress

/-- Take the next tag; one that fails is reported and changes nothing else. -/
def Progress.next (progress : Progress) (tag : Tag) : Progress :=
  match progress.apply tag with
  | .ok advanced => advanced
  | .error error => { progress with problems := progress.problems ++ [error] }

/-- The schema of the defined type before its declarations, and why it was taken for that
of all objects, if it was. -/
def rootSchema (typeText : String) : Schema × Option ConversionError :=
  if typeText = "" then (.ofType "object", none)
  else match Schema.ofText typeText with
    | .ok schema => (schema, none)
    | .error error => (.ofType "object", some error)

/-- The schema of the type that a comment defines.  There is no result if the comment
defines none. -/
def ofBlock? (block : Block) : Option (Except TypedefError Typedef) :=
  (block.find? typedefTitle).map fun typedef =>
    if typedef.name = "" then .error .missingName
    else
      let (schema, rootTypeError) := rootSchema typedef.typeText
      let root := { schema with
        title := some typedef.name
        description :=
          if block.description = "" then schema.description else some block.description }
      let progress := block.tags.foldl Progress.next { root }
      .ok ⟨typedef.name, progress.root, progress.problems, rootTypeError⟩

end Typedef

end ApiAssembly
