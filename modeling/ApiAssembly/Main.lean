import ApiAssembly.Command.Run

/-!
# The program

The paths of the project's files come on standard input, one a line; a path that ends
with a slash is that of a directory.  The program reads these files, runs on them, and
writes what the run has written.
-/

namespace ApiAssembly.Command

open Project (Content FileTree Path.parent?)

partial def readInput (input : IO.FS.Stream) : IO String := do
  let line ← input.getLine
  if line.isEmpty then return "" else return line ++ (← readInput input)

/-- The tree with a file or directory of the outside, whose parents are made. -/
def addOutside (tree : FileTree) (path : String) : IO FileTree := do
  let ready := ((Path.parent? path).bind tree.makeDirectories?).getD tree
  if path.toList.getLast? = some '/' then return (ready.makeDirectories? path).getD ready
  else return (ready.write? path (Content.ofBytes (← IO.FS.readBinFile path))).getD ready

/-- Write a file outside. -/
def writeOutside (path text : String) : IO Unit := do
  if let some parent := Path.parent? path then
    if parent ≠ "" then IO.FS.createDirAll parent
  IO.FS.writeFile path text

/-- Run with the given options; the result tells whether the run succeeded. -/
def runOutside (options : Options) : IO Bool := do
  let listed ← readInput (← IO.getStdin)
  let paths := (Text.lines listed.toList).map String.ofList
  let tree ← paths.foldlM addOutside (FileTree.directory [])
  let outcome := run tree options
  IO.print outcome.effects.printed
  for (path, text) in outcome.effects.written do
    writeOutside path text
  match outcome.failure with
  | none => return true
  | some error =>
    IO.eprintln error.message
    return false

/-- Read the options and run.  The result is the status with which the program ends. -/
def start (arguments : List String) : IO UInt32 := do
  match Options.ofArguments arguments with
  | .ok options => return if ← runOutside options then 0 else 1
  | .error error =>
    if error = .helpRequested || error = .versionRequested then
      IO.println error.message
      return 0
    else
      IO.eprintln error.message
      return 2

end ApiAssembly.Command

def main (arguments : List String) : IO UInt32 :=
  ApiAssembly.Command.start arguments
