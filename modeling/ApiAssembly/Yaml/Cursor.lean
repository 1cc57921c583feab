/-!
# Places in a YAML text

The characters that a YAML text may hold, its blanks and line breaks, and a cursor that
knows its line and column.
-/

namespace ApiAssembly.Yaml

def isAllowed (c : Char) : Bool :=
  let code := c.toNat
  code = 0x09 || code = 0x0A || code = 0x0D || (0x20 ≤ code && code ≤ 0x7E) || code = 0x85
    || (0xA0 ≤ code && code ≤ 0xD7FF) || (0xE000 ≤ code && code ≤ 0xFFFD) || 0x10000 ≤ code

def isBreak (c : Char) : Bool :=
  c = '\n' || c = '\r' || c = '\u0085' || c = '\u2028' || c = '\u2029'

def isBlank (c : Char) : Bool :=
  c = ' ' || c = '\t'

def isGap (c : Char) : Bool :=
  isBlank c || isBreak c

/-- Whether a text begins with a gap or is at its end. -/
def gapFollows : List Char → Bool
  | [] => true
  | c :: _ => isGap c

def isNameChar (c : Char) : Bool :=
  c.isAlphanum || c = '_' || c = '-'

/-- A place in a text: what follows it, the characters in front of it, its line, and its
column, all counted from zero. -/
structure Cursor where
  rest : List Char
  index : Nat := 0
  line : Nat := 0
  column : Nat := 0

namespace Cursor

def peek? (cursor : Cursor) : Option Char :=
  cursor.rest.head?

/-- Go over characters of which none breaks a line. -/
def advance (cursor : Cursor) (count : Nat) : Cursor :=
  { cursor with
    rest := cursor.rest.drop count
    index := cursor.index + count
    column := cursor.column + count }

/-- Go to where the given rest of the same line begins. -/
def advanceTo (cursor : Cursor) (rest : List Char) : Cursor :=
  let count := cursor.rest.length - rest.length
  { cursor with rest, index := cursor.index + count, column := cursor.column + count }

/-- Go over characters for as long as they satisfy a condition that no break satisfies. -/
def advanceWhile (cursor : Cursor) (condition : Char → Bool) : Cursor :=
  cursor.advance (cursor.rest.takeWhile condition).length

/-- The line break at the cursor as it counts in a scalar, and the place behind it.  Breaks
of ASCII and the next-line character become line feeds. -/
def takeBreak (cursor : Cursor) : List Char × Cursor :=
  let newLine (count : Nat) (rest : List Char) : Cursor :=
    ⟨rest, cursor.index + count, cursor.line + 1, 0⟩
  match cursor.rest with
  | '\r' :: '\n' :: rest => (['\n'], newLine 2 rest)
  | c :: rest =>
    if c = '\u2028' || c = '\u2029' then ([c], newLine 1 rest)
    else if isBreak c then (['\n'], newLine 1 rest)
    else ([], cursor)
  | [] => ([], cursor)

/-- Whether three given characters stand alone at the beginning of a line. -/
def atMark (cursor : Cursor) (c : Char) : Bool :=
  cursor.column = 0 &&
    match cursor.rest with
    | x :: y :: z :: rest => x = c && y = c && z = c && gapFollows rest
    | _ => false

/-- Whether the mark of a document's beginning or end stands at the cursor. -/
def atDocumentMark (cursor : Cursor) : Bool :=
  cursor.atMark '-' || cursor.atMark '.'

/-- Whether the cursor is at the end of a line or of the text. -/
def atLineEnd (cursor : Cursor) : Bool :=
  match cursor.rest with
  | [] => true
  | c :: _ => isBreak c

def skipComment (cursor : Cursor) : Cursor :=
  if cursor.peek? = some '#' then cursor.advanceWhile fun c => !isBreak c else cursor

/-- Go over blanks and a comment to the end of the line and beyond the break.  There is no
result if something else stands on the line. -/
def finishLine? (cursor : Cursor) : Option Cursor :=
  let place := (cursor.advanceWhile isBlank).skipComment
  if place.atLineEnd then some place.takeBreak.2 else none

end Cursor

end ApiAssembly.Yaml
