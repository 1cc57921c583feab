/-!
# Documentation comments

The parts of a documentation comment: a description and tags, with the problems that
were met in reading them.
-/

namespace ApiAssembly.Comment

structure Tag where
  /-- The name of the tag, without the sign `@`. -/
  title : String
  typeText : String := ""
  /-- The name that is tagged, without brackets and default. -/
  name : String := ""
  optional : Bool := false
  /-- The text of the default within the brackets. -/
  defaultText : Option String := none
  description : String := ""
deriving DecidableEq

inductive Fault where
  | unpairedBrace
  | emptyDefault
  | emptyName
  | unpairedBracket
deriving DecidableEq

def Fault.code : Fault → String
  | .unpairedBrace => "spec:type:unpaired-curly"
  | .emptyDefault => "spec:name:empty-default"
  | .emptyName => "spec:name:empty-name"
  | .unpairedBracket => "spec:name:unpaired-brackets"

/-- What is said about a tag with a fault. -/
def Fault.predicate : Fault → String
  | .unpairedBrace => "has an unpaired curly bracket"
  | .emptyDefault => "has an empty default value"
  | .emptyName => "has an empty name"
  | .unpairedBracket => "has an unpaired square bracket"

structure Problem where
  fault : Fault
  title : String
  line : Nat
deriving DecidableEq

def Problem.message (problem : Problem) : String :=
  "tag @" ++ problem.title ++ " " ++ problem.fault.predicate

/-- A problem with its code and its place. -/
def Problem.report (problem : Problem) : String :=
  problem.fault.code ++ " (line " ++ String.ofList (Nat.toDigits 10 problem.line) ++ "): " ++
    problem.message

structure Block where
  source : String
  description : String
  tags : List Tag
  problems : List Problem
deriving DecidableEq

def Block.find? (block : Block) (title : String) : Option Tag :=
  block.tags.find? fun tag => tag.title = title

end ApiAssembly.Comment
