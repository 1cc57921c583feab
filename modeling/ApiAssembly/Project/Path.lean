import ApiAssembly.Text.Search

/-!
# Paths

The text of a path: its names between slashes, the path that leads to what holds it, the
path of something below it, and the extension of its last name.
-/

namespace ApiAssembly.Project

namespace Path

/-- The names of a path, in order.  A slash at the beginning, at the end or beside another
slash makes an empty name. -/
def splitChars : List Char → List (List Char)
  | [] => [[]]
  | c :: rest =>
    if c = '/' then [] :: splitChars rest
    else match splitChars rest with
      | [] => [[c]]
      | name :: more => (c :: name) :: more

def names (path : String) : List String :=
  (splitChars path.toList).map String.ofList

def isAbsolute (path : String) : Bool :=
  path.toList.head? = some '/'

/-- The characters of a path from the last to the first, without slashes and names of a
single dot at the path's end. -/
def trimReversed : List Char → List Char
  | ['/'] => ['/']
  | '/' :: rest => trimReversed rest
  | '.' :: '/' :: rest => trimReversed ('/' :: rest)
  | other => other
termination_by chars => chars.length

/-- The path that leads to what holds the last name.  There is none for a path without
names. -/
def parent? (path : String) : Option String :=
  match trimReversed path.toList.reverse with
  | [] | ['/'] => none
  | chars => some (String.ofList (trimReversed (chars.dropWhile (· ≠ '/'))).reverse)

/-- The path of something below a path; what begins at the top is not below. -/
def join (base path : String) : String :=
  if isAbsolute path then path
  else if base.toList.getLast?.all (· = '/') then base ++ path
  else base ++ "/" ++ path

/-- The path of something below a path by the names that lead there. -/
def joinNames (base : String) (names : List String) : String :=
  names.foldl join base

/-- The extension of a name: what stands behind the last dot, unless nothing stands in front
of it. -/
def extension (name : String) : String :=
  match Text.splitLast '.' name.toList with
  | some (_ :: _, extension) => String.ofList extension
  | _ => ""

@[simp] theorem joinNames_nil (base : String) : joinNames base [] = base := rfl

end Path

end ApiAssembly.Project
