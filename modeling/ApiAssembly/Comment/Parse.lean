import ApiAssembly.Comment.Tag

/-!
# Finding and reading comments

Documentation comments begin with a slash and two stars and end at the next star and
slash.  A comment's lines lose their indentation and the star in front, and one blank
behind the star; further indentation stays.
-/

namespace ApiAssembly.Comment

def openingMark : List Char := ['/', '*', '*']

def closingMark : List Char := ['*', '/']

/-- The texts of the comments in a text, marks included.  A comment that is not closed is
left out. -/
def blockTexts (text : List Char) : List (List Char) :=
  match _opened : Text.find? openingMark text with
  | none => []
  | some (_, body) =>
    match _closed : Text.find? closingMark body with
    | none => []
    | some (inside, rest) => (openingMark ++ inside ++ closingMark) :: blockTexts rest
termination_by text.length
decreasing_by
  rw [Text.eq_of_find? _opened, Text.eq_of_find? _closed]
  simp [openingMark, closingMark]
  omega

/-- The text between the marks of a comment; a text without the marks is left whole. -/
def innerText (text : List Char) : List Char :=
  match Text.after? openingMark text with
  | none => text
  | some body => (Text.before? closingMark body).getD text

/-- A line without its indentation, the star in front, one blank behind the star, and
blanks at the end. -/
def stripDelimiter (line : List Char) : List Char :=
  match Text.trimStart line with
  | '*' :: ' ' :: rest | '*' :: '\t' :: rest | '*' :: rest => Text.trimEnd rest
  | plain => Text.trimEnd plain

structure TagLines where
  number : Nat
  first : List Char
  more : List (List Char)

/-- The lines in front of the first tag, and the lines of every tag. -/
def groupLines : List (Nat × List Char) → List (List Char) × List TagLines
  | [] => ([], [])
  | (number, line) :: rest =>
    let (leading, groups) := groupLines rest
    match Text.trimStart line with
    | '@' :: first => ([], ⟨number, first, leading⟩ :: groups)
    | _ => (line :: leading, groups)

/-- The lines of a text with their numbers, which begin at the given one. -/
def numberLines (start : Nat) : List (List Char) → List (Nat × List Char)
  | [] => []
  | line :: rest => (start, line) :: numberLines (start + 1) rest

def parseBlock (text : List Char) : Block :=
  let lines := (Text.lines (innerText text)).map stripDelimiter
  let (leading, groups) := groupLines (numberLines 0 lines)
  let read := groups.map fun group => readTag group.number group.first group.more
  { source := String.ofList text
    description := String.ofList (Text.trim (joinTrimmed leading))
    tags := read.map Prod.fst
    problems := read.flatMap Prod.snd }

def parse (text : List Char) : List Block :=
  (blockTexts text).map parseBlock

end ApiAssembly.Comment
