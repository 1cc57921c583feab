import ApiAssembly.Command.Options
import ApiAssembly.Project.Models
import ApiAssembly.Yaml.Write

/-!
# Running the program

A run reads a project and the models, builds the document, writes it and the errors, and
fails at the end if it is strict and the build recorded errors.
-/

namespace ApiAssembly.Command

open Document (Contribution Assembly)
open Project (FileTree ModelsError)

/-- Why a run fails. -/
inductive RunError where
  | projectMissing (path : String)
  | projectNotDirectory (path : String)
  | modelsMissing (path : String)
  | models (error : ModelsError)
  | directoryNotMade (path : String)
  | fileNotWritten (path : String)
  | recordedErrors (count : Nat)
deriving DecidableEq

def RunError.message : RunError → String
  | .projectMissing path => "Project path does not exist: " ++ path
  | .projectNotDirectory path => "Project path is not a directory: " ++ path
  | .modelsMissing path => "Models file does not exist: " ++ path
  | .models error => error.message
  | .directoryNotMade path => "Failed to create directory: " ++ path
  | .fileNotWritten path => "Failed to write to file: " ++ path
  | .recordedErrors count => "Build recorded " ++ String.ofList (Nat.toDigits 10 count) ++ " errors"

/-- Check that the paths in the options lead to what they should. -/
def validate (tree : FileTree) (options : Options) : Except RunError Unit := do
  if (tree.lookup? options.project).isNone then throw (.projectMissing options.project)
  if !tree.hasDirectory options.project then throw (.projectNotDirectory options.project)
  if let some path := options.models then
    if !tree.hasFile path then throw (.modelsMissing path)

/-- The contribution of a title and version, if one of them is given. -/
def infoContributions (options : Options) : List Contribution :=
  match options.title, options.apiVersion with
  | none, none => []
  | title, version =>
    let usual : Document.Info := {}
    [.info ⟨title.getD usual.title, version.getD usual.version⟩]

def assemble (tree : FileTree) (options : Options) : Except RunError Assembly := do
  let scan := Project.scan tree options.project options.sourceExtensions
  let models ← match options.models with
    | none => pure []
    | some path => (Project.loadModels tree path).mapError .models
  let sources := { scan.sources with models }
  return Document.assemble (infoContributions options ++ sources.contributions)

def render (format : Format) (document : Value) : String :=
  match format with
  | .yaml => Yaml.write document
  | .json => Json.pretty document

structure Effects where
  tree : FileTree
  printed : String := ""
  /-- The written files by their paths, in order. -/
  written : List (String × String) := []

def Effects.print (effects : Effects) (text : String) : Effects :=
  { effects with printed := effects.printed ++ text }

/-- What a run leaves behind, and why it failed if it did. -/
structure Outcome where
  effects : Effects
  failure : Option RunError := none

/-- Go on unless the run has failed.  What was done before a failure stays. -/
def Outcome.andThen (outcome : Outcome) (next : Effects → Outcome) : Outcome :=
  match outcome.failure with
  | none => next outcome.effects
  | some _ => outcome

/-- Make the directory for a file, if it is not there. -/
def prepare (path : String) (effects : Effects) : Outcome :=
  match Project.Path.parent? path with
  | none => { effects }
  | some parent =>
    match effects.tree.makeDirectories parent with
    | (tree, true) => { effects := { effects with tree } }
    | (tree, false) => ⟨{ effects with tree }, some (.directoryNotMade parent)⟩

/-- Write a file in a directory that is there. -/
def store (path text : String) (effects : Effects) : Outcome :=
  match effects.tree.write? path (.text text) with
  | some tree => { effects := { effects with tree, written := effects.written ++ [(path, text)] } }
  | none => ⟨effects, some (.fileNotWritten path)⟩

/-- Write a file, in a directory that is made if it is not there. -/
def write (path text : String) (effects : Effects) : Outcome :=
  (prepare path effects).andThen (store path text)

/-- Write the document, or print it if there is no file for it. -/
def deliver (options : Options) (assembly : Assembly) (effects : Effects) : Outcome :=
  let text := render options.format assembly.document
  match options.output with
  | some path => write path text effects
  | none => { effects := effects.print (text ++ "\n") }

/-- Write the errors, if there is a file for them. -/
def deliverErrors (options : Options) (assembly : Assembly) (effects : Effects) : Outcome :=
  match options.errors with
  | none => { effects }
  | some path => write path (Json.pretty (Document.reportIssues assembly.errors)) effects

/-- Fail if the run is strict and the build recorded errors. -/
def checkErrors (options : Options) (assembly : Assembly) (effects : Effects) : Outcome :=
  if options.strict && assembly.hasErrors then
    ⟨effects, some (.recordedErrors assembly.errors.length)⟩
  else { effects }

/-- Run the program.  What was printed and written before a failure stays. -/
def run (tree : FileTree) (options : Options) : Outcome :=
  match (do validate tree options; assemble tree options) with
  | .error error => ⟨{ tree }, some error⟩
  | .ok assembly =>
    ((deliver options assembly { tree }).andThen (deliverErrors options assembly)).andThen
      (checkErrors options assembly)

end ApiAssembly.Command
