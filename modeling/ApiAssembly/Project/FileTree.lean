import ApiAssembly.Entries
import ApiAssembly.Project.Path

/-!
# File trees

Files, links and directories below a top directory, and what happens when a path is
followed.  A path is followed name by name; a link counts as the path that it holds, and
too many links lead nowhere.
-/

namespace ApiAssembly.Project

inductive Content where
  | text (text : String)
  | binary
deriving DecidableEq

def Content.ofBytes (bytes : ByteArray) : Content :=
  match String.fromUTF8? bytes with
  | some decoded => .text decoded
  | none => .binary

def Content.text? : Content → Option String
  | .text held => some held
  | .binary => none

/-- A file, a link or a directory with everything below it. -/
inductive FileTree where
  | file (content : Content)
  | link (target : String)
  | directory (entries : List (String × FileTree))

/-- A place in a tree: the names that lead there from the top. -/
abbrev Place := List String

/-- Where a path leads: to what is there, or to a name that a directory lacks. -/
inductive Destination where
  | present (place : Place)
  | absent (place : Place)
deriving DecidableEq

namespace FileTree

instance : Inhabited FileTree := ⟨.directory []⟩

def isDirectory : FileTree → Bool
  | .directory _ => true
  | _ => false

def content? : FileTree → Option Content
  | .file content => some content
  | _ => none

def at? : FileTree → Place → Option FileTree
  | tree, [] => some tree
  | .directory entries, name :: rest => (Entries.get? name entries).bind fun entry => entry.at? rest
  | _, _ :: _ => none

/-- The tree with something else at a place.  Directories on the way are made where nothing
is. -/
def put (inserted : FileTree) : Place → FileTree → FileTree
  | [], _ => inserted
  | name :: rest, .directory entries =>
    let below := (Entries.get? name entries).getD (.directory [])
    .directory (Entries.put name (put inserted rest below) entries)
  | _ :: _, other => other

/-- How many links a path may lead through. -/
def linkLimit : Nat := 40

/-- Follow names from a place, through at most the given number of links. -/
def follow? (tree : FileTree) (links : Nat) (place : Place) (names : List String) :
    Option Destination :=
  match names with
  | [] => some (.present place)
  | name :: rest =>
    match tree.at? place with
    | some (.directory entries) =>
      if name = "" || name = "." then tree.follow? links place rest
      else if name = ".." then tree.follow? links place.dropLast rest
      else match Entries.get? name entries with
        | none => if rest = [] then some (.absent (place ++ [name])) else none
        | some (.link target) =>
          match links with
          | 0 => none
          | links + 1 =>
            tree.follow? links (if Path.isAbsolute target then [] else place)
              (Path.names target ++ rest)
        | some _ => tree.follow? links (place ++ [name]) rest
    | _ => none
termination_by (links, names.length)

/-- Where a path leads.  The empty path leads nowhere. -/
def locate? (tree : FileTree) (path : String) : Option Destination :=
  if path = "" then none else tree.follow? linkLimit [] (Path.names path)

/-- What is where names lead from a place. -/
def lookupFrom? (tree : FileTree) (place : Place) (names : List String) :
    Option (Place × FileTree) :=
  match tree.follow? linkLimit place names with
  | some (.present found) => (tree.at? found).map fun entry => (found, entry)
  | _ => none

/-- What is where a path leads. -/
def lookup? (tree : FileTree) (path : String) : Option (Place × FileTree) :=
  if path = "" then none else tree.lookupFrom? [] (Path.names path)

def hasDirectory (tree : FileTree) (path : String) : Bool :=
  (tree.lookup? path).any fun found => found.2.isDirectory

def hasFile (tree : FileTree) (path : String) : Bool :=
  (tree.lookup? path).any fun found => found.2.content?.isSome

def readText? (tree : FileTree) (path : String) : Option String := do
  let (_, found) ← tree.lookup? path
  (← found.content?).text?

/-- Go from a directory to the one of a name, which is made if nothing is there. -/
def enter? : FileTree × Place → String → Option (FileTree × Place)
  | (tree, place), name =>
    match tree.at? place with
    | some (.directory entries) =>
      if name = "" || name = "." || name = ".." || Entries.contains name entries then
        match tree.lookupFrom? place [name] with
        | some (found, .directory _) => some (tree, found)
        | _ => none
      else some (put (.directory []) (place ++ [name]) tree, place ++ [name])
    | _ => none

/-- Go from a place through directories of the given names, which are made where nothing is.  What
was made stays if a name cannot be entered; the flag tells whether all could be. -/
def enterAll (tree : FileTree) (place : Place) : List String → FileTree × Bool
  | [] => (tree, true)
  | name :: rest =>
    match enter? (tree, place) name with
    | some (next, below) => next.enterAll below rest
    | none => (tree, false)

/-- Make the directories on a path, where they are not there yet. -/
def makeDirectories (tree : FileTree) (path : String) : FileTree × Bool :=
  tree.enterAll [] (Path.names path)

/-- The tree with the directories on a path, if all of them are there in the end. -/
def makeDirectories? (tree : FileTree) (path : String) : Option FileTree :=
  match tree.makeDirectories path with
  | (made, true) => some made
  | (_, false) => none

/-- Write a file where a path leads, in a directory that is there. -/
def write? (tree : FileTree) (path : String) (content : Content) : Option FileTree :=
  match tree.locate? path with
  | some (.present place) =>
    match tree.at? place with
    | some (.file _) => some (put (.file content) place tree)
    | _ => none
  | some (.absent place) => some (put (.file content) place tree)
  | none => none

@[simp] theorem at?_nil (tree : FileTree) : tree.at? [] = some tree := by
  cases tree <;> rfl

end FileTree

end ApiAssembly.Project
