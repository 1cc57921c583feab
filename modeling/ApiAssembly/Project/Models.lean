import ApiAssembly.Project.FileTree
import ApiAssembly.Yaml.Read

/-!
# Model files

A file that holds the schemas of models by their names, as YAML or JSON.
-/

namespace ApiAssembly.Project

inductive ModelsError where
  | unreadable (path : String)
  | malformed (path : String)
  | notMapping (path : String)
deriving DecidableEq

def ModelsError.message : ModelsError → String
  | .unreadable path => "Failed to read models file: " ++ path
  | .malformed path => "Failed to parse models file: " ++ path
  | .notMapping path => "Models file must map schema names to schemas: " ++ path

def loadModels (tree : FileTree) (path : String) : Except ModelsError Members :=
  match tree.readText? path with
  | none => .error (.unreadable path)
  | some text =>
    match Yaml.read? text with
    | none => .error (.malformed path)
    | some (.object members) => .ok members
    | some _ => .error (.notMapping path)

end ApiAssembly.Project
