import ApiAssembly.Comment.Basic
import ApiAssembly.Typedef.Error
import ApiAssembly.Value.Basic

/-!
# Issues of a build

What a build reports beside the document: the cause of each issue and the text in which
it arose.  A build with issues still has a document.
-/

namespace ApiAssembly.Document

inductive IssueKind where
  | fragment | comment | embeddedFragment | typedef | missingReference
deriving DecidableEq

def IssueKind.name : IssueKind → String
  | .fragment => "yaml-parse"
  | .comment => "jsdoc-parse"
  | .embeddedFragment => "jsdoc-embedded-yaml"
  | .typedef => "jsdoc-typedef"
  | .missingReference => "missing-reference"

/-- What can be wrong with what a document is built from. -/
inductive IssueCause where
  /-- The text of a fragment is no YAML. -/
  | malformedFragment
  /-- A fragment is neither empty nor a mapping. -/
  | fragmentKind (kind : ValueKind)
  /-- A comment has faulty tags. -/
  | faultyComment (problems : List Comment.Problem)
  /-- The text of a fragment in a comment is no YAML. -/
  | malformedEmbedding
  /-- A fragment in a comment is not a mapping. -/
  | embeddedKind (kind : ValueKind)
  /-- A type definition has no schema. -/
  | definition (error : TypedefError)
  /-- A declaration in the definition of a type has no effect. -/
  | declaration (typeName : String) (error : TypedefError)
  /-- A type was taken for that of all objects. -/
  | rootType (typeName : String) (error : ConversionError)
  /-- Nothing defines the schema that a reference names. -/
  | missingSchema (name : String)
deriving DecidableEq

namespace IssueCause

def kind : IssueCause → IssueKind
  | .malformedFragment | .fragmentKind _ => .fragment
  | .faultyComment _ => .comment
  | .malformedEmbedding | .embeddedKind _ => .embeddedFragment
  | .definition _ | .declaration .. | .rootType .. => .typedef
  | .missingSchema _ => .missingReference

def malformedMessage : String := "invalid YAML"

def message : IssueCause → String
  | .malformedFragment | .malformedEmbedding => malformedMessage
  | .fragmentKind kind => "fragment must be a mapping, got " ++ kind.name
  | .faultyComment problems => "; ".intercalate (problems.map Comment.Problem.report)
  | .embeddedKind kind => "parsed result must be a mapping, got " ++ kind.name
  | .definition error => error.message
  | .declaration typeName error => "typedef " ++ typeName ++ ": " ++ error.message
  | .rootType typeName error =>
    "typedef " ++ typeName ++ ": root type replaced by object: " ++ error.message
  | .missingSchema name => "type " ++ name ++ " not-found"

end IssueCause

structure Issue where
  cause : IssueCause
  source : Option String := none
deriving DecidableEq

/-- An issue as it stands in reports. -/
def Issue.toValue (issue : Issue) : Value :=
  .object (("kind", .string issue.cause.kind.name) ::
    (match issue.source with
      | some text => [("source", .string text)]
      | none => []) ++ [("error", .string issue.cause.message)])

def reportIssues (issues : List Issue) : Value :=
  .array (issues.map Issue.toValue)

end ApiAssembly.Document
