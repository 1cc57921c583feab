import ApiAssembly.Comment.Parse
import ApiAssembly.Document.Assembly
import ApiAssembly.Project.FileTree

/-!
# Scanning a project

The files of a project from which a document is built: YAML files with fragments, and
source files with comments.  Directories are read in the order of their names, and
hidden files and directories, build output and dependencies are left out.  Links to
files count as files, and links to directories are not entered.
-/

namespace ApiAssembly.Project

/-- A file of a project by the names that lead to it below the project's directory. -/
structure ProjectFile where
  path : List String
  content : Content
deriving DecidableEq

/-- Names of directories that are not entered. -/
def skippedDirectories : List String := ["target", "node_modules"]

/-- Whether an entry of a directory is left out. -/
def isSkipped (name : String) (entry : FileTree) : Bool :=
  name.toList.head? = some '.' || (entry.isDirectory && skippedDirectories.contains name)

/-- Insert a named value in front of the first one with a greater name. -/
def insertByName {α : Type} (inserted : String × α) : List (String × α) → List (String × α)
  | [] => [inserted]
  | present :: rest =>
    if inserted.1 < present.1 then inserted :: present :: rest
    else present :: insertByName inserted rest

/-- Named values in the order of their names, character by character. -/
def sortByName {α : Type} : List (String × α) → List (String × α)
  | [] => []
  | entry :: rest => insertByName entry (sortByName rest)

mutual

/-- The files of a project at or below a path from the project's directory, of which the names
are given.  The path of a file begins with these names. -/
def filesAt (tree : FileTree) (root path : List String) : FileTree → List ProjectFile
  | .file content => [⟨path, content⟩]
  | .link _ =>
    match (tree.lookupFrom? [] (root ++ path)).bind fun found => found.2.content? with
    | some content => [⟨path, content⟩]
    | none => []
  | .directory entries => (sortByName (entryFiles tree root path entries)).flatMap Prod.snd

/-- The files of each entry of a directory that is not left out. -/
def entryFiles (tree : FileTree) (root path : List String) :
    List (String × FileTree) → List (String × List ProjectFile)
  | [] => []
  | (name, entry) :: rest =>
    (name, if isSkipped name entry then [] else filesAt tree root (path ++ [name]) entry) ::
      entryFiles tree root path rest

end

/-- The files of a project and what could not be accessed. -/
structure Scan where
  root : String
  yamlFiles : List ProjectFile := []
  sourceFiles : List ProjectFile := []
  inaccessible : Nat := 0

def ProjectFile.name (root : String) (file : ProjectFile) : String :=
  (file.path.getLast?.or (Path.names root).getLast?).getD ""

def ProjectFile.fullPath (root : String) (file : ProjectFile) : String :=
  Path.joinNames root file.path

/-- Whether a file holds a fragment. -/
def ProjectFile.isYaml (root : String) (file : ProjectFile) : Bool :=
  ["yaml", "yml"].contains (Path.extension (file.name root))

/-- Whether a file that holds no fragment has one of the extensions of source files. -/
def ProjectFile.isSource (root : String) (extensions : List String) (file : ProjectFile) : Bool :=
  !file.isYaml root && extensions.contains (Path.extension (file.name root))

/-- An extension without dots in front. -/
def trimExtension (extension : String) : String :=
  String.ofList (extension.toList.dropWhile (· = '.'))

def defaultExtensions : List String := ["js"]

/-- Find the files of a project.  The project's own path may be a link and have any name. -/
def scan (tree : FileTree) (root : String) (extensions : List String) : Scan :=
  match tree.lookup? root with
  | none => { root, inaccessible := 1 }
  | some (_, entry) =>
    let files := filesAt tree (Path.names root) [] entry
    { root
      yamlFiles := files.filter (ProjectFile.isYaml root)
      sourceFiles := files.filter (ProjectFile.isSource root (extensions.map trimExtension)) }

/-- The texts of the files that hold a text. -/
def readableTexts (files : List ProjectFile) : List String :=
  files.filterMap fun file => file.content.text?

namespace Scan

/-- What the files of a project contribute: the fragments, and each comment as a text of its
own. -/
def sources (scan : Scan) : Document.Sources :=
  { yaml := readableTexts scan.yamlFiles
    comments := (readableTexts scan.sourceFiles).flatMap fun text =>
      (Comment.blockTexts text.toList).map String.ofList }

def unreadable (scan : Scan) : List String :=
  ((scan.yamlFiles ++ scan.sourceFiles).filter fun file => file.content.text?.isNone).map
    (ProjectFile.fullPath scan.root)

end Scan

/-- What is said about a file that holds no text. -/
def unreadableMessage (path : String) : String :=
  "Failed to read " ++ path

end ApiAssembly.Project
