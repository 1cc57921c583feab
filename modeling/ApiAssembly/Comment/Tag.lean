import ApiAssembly.Comment.Basic
import ApiAssembly.Text.Line
import ApiAssembly.Text.Search

/-!
# Reading tags

A tag is read from the line on which it stands and from the lines up to the next tag:

    @title {type} name description
    @title {type} [name=default] description

Every part behind the title may be absent, and the type may go on over several lines.
-/

namespace ApiAssembly.Comment

open Text (trim trimStart trimEnd)

/-- The text up to the mark that closes a group, and what follows the mark.  The depth
counts the inner groups that are open; it is returned if the text ends first. -/
def closeGroup (opening closing : Char) (depth : Nat) :
    List Char → Except Nat (List Char × List Char)
  | [] => .error depth
  | c :: rest =>
    if c = closing ∧ depth = 0 then .ok ([], rest)
    else
      let deeper := if c = opening then depth + 1 else if c = closing then depth - 1 else depth
      match closeGroup opening closing deeper rest with
      | .ok (inside, after) => .ok (c :: inside, after)
      | .error left => .error left

/-- The contents of a group in braces that may go on over the following lines, the text
behind the closing brace on its line, and the lines that were not needed. -/
def closeBraces (depth : Nat) (line : List Char) (more : List (List Char)) :
    Option (List Char × List Char × List (List Char)) :=
  match closeGroup '{' '}' depth line with
  | .ok (inside, after) => some (inside, after, more)
  | .error deeper =>
    match more with
    | [] => none
    | next :: rest =>
      (closeBraces deeper next rest).map fun (inside, after, unused) =>
        (line ++ '\n' :: inside, after, unused)

def isBlankLine (line : List Char) : Bool :=
  line.all Text.isBlank

/-- The lines without the blank ones in front and behind, below each other. -/
def joinTrimmed (lines : List (List Char)) : List Char :=
  let started := lines.dropWhile isBlankLine
  Text.joinLines (started.reverse.dropWhile isBlankLine).reverse

/-- The description that begins on a line and goes on over others. -/
def describe (line : List Char) (more : List (List Char)) : String :=
  String.ofList (trimEnd (joinTrimmed (line :: more)))

/-- Read what stands within the brackets of an optional name. -/
def readOptional (tag : Tag) (line : Nat) (inside : List Char) : Tag × List Problem :=
  let problem (fault : Fault) : Problem := ⟨fault, tag.title, line⟩
  let (name, assigned) :=
    match Text.splitFirst '=' inside with
    | some (name, assigned) => (trim name, some (trim assigned))
    | none => (trim inside, none)
  let emptyDefault := if assigned = some [] then [problem .emptyDefault] else []
  let emptyName := if name = [] then [problem .emptyName] else []
  let defaultText := if assigned = some [] then none else assigned.map String.ofList
  ({ tag with name := String.ofList name, optional := true, defaultText },
    emptyDefault ++ emptyName)

/-- Read the name and the description of a tag. -/
def readName (tag : Tag) (line : Nat) (text : List Char) (more : List (List Char)) :
    Tag × List Problem :=
  match text with
  | '[' :: rest =>
    match closeGroup '[' ']' 0 rest with
    | .error _ => (tag, [⟨.unpairedBracket, tag.title, line⟩])
    | .ok (inside, after) =>
      let (named, problems) := readOptional tag line inside
      ({ named with description := describe (trimStart after) more }, problems)
  | text =>
    let (name, after) := text.span fun c => !Text.isBlank c
    ({ tag with
        name := String.ofList name
        description := describe (trimStart after) more }, [])

/-- Read a tag from its line behind the sign `@` and from the lines that follow. -/
def readTag (line : Nat) (text : List Char) (more : List (List Char)) :
    Tag × List Problem :=
  let (title, after) := text.span fun c => !(Text.isBlank c || c = '{')
  let tag : Tag := { title := String.ofList title }
  match trimStart after with
  | '{' :: rest =>
    match closeBraces 0 rest more with
    | none => (tag, [⟨.unpairedBrace, tag.title, line⟩])
    | some (inside, after, unused) =>
      readName { tag with typeText := String.ofList (trim inside) } line (trimStart after) unused
  | rest => readName tag line rest more

@[simp] theorem closeGroup_nil (opening closing : Char) (depth : Nat) :
    closeGroup opening closing depth [] = .error depth := rfl

end ApiAssembly.Comment
