import ApiAssembly.Yaml.Gap
import ApiAssembly.Json.Reader

/-!
# The text of scalars

How the texts of plain, quoted and block scalars are read from where they begin.
-/

namespace ApiAssembly.Yaml

def endsFlowPlain (c : Char) : Bool :=
  c = ',' || c = '[' || c = ']' || c = '{' || c = '}'

/-- The characters of a plain scalar up to the next gap or to its end, and what follows.
Within brackets and braces, a colon directly in front of one of their marks is refused. -/
def plainRun? (flow : Bool) : List Char → Option (List Char × List Char)
  | [] => some ([], [])
  | c :: rest =>
    if isGap c then some ([], c :: rest)
    else if flow && c = ':' && rest.head?.any fun next => endsFlowPlain next || next = '?' then
      none
    else if c = ':' && gapFollows rest then some ([], c :: rest)
    else if flow && endsFlowPlain c then some ([], c :: rest)
    else (plainRun? flow rest).map fun (run, after) => (c :: run, after)

/-- Read on in a plain scalar behind a gap.  The result holds the text from there, whether the
scalar ended behind a line break, and the place behind it.  The first number bounds the
steps. -/
def readPlain? (flow : Bool) (indent : Int) :
    Nat → Gap → Cursor → Option (List Char × Bool × Cursor)
  | 0, gap, cursor => some ([], gap.broken, cursor)
  | fuel + 1, gap, cursor =>
    if cursor.atDocumentMark || cursor.peek? = some '#' then some ([], gap.broken, cursor)
    else do
      let (run, rest) ← plainRun? flow cursor.rest
      if run = [] then return ([], gap.broken, cursor)
      let text := gap.fold ++ run
      let cursor := cursor.advance run.length
      if rest = [] || !gapFollows rest then return (text, false, cursor)
      let (gap, cursor) ← Gap.read? (some indent) fuel {} cursor
      if !flow && (cursor.column : Int) < indent then return (text, gap.broken, cursor)
      let (more, broken, cursor) ← readPlain? flow indent fuel gap cursor
      return (text ++ more, broken, cursor)

def letterEscape? : Char → Option Char
  | '0' => some '\x00'
  | 'a' => some '\x07'
  | 'b' => some '\x08'
  | 't' => some '\t'
  | '\t' => some '\t'
  | 'n' => some '\n'
  | 'v' => some '\x0b'
  | 'f' => some '\x0c'
  | 'r' => some '\r'
  | 'e' => some '\x1b'
  | ' ' => some ' '
  | '"' => some '"'
  | '/' => some '/'
  | '\\' => some '\\'
  | 'N' => some '\u0085'
  | '_' => some '\u00a0'
  | 'L' => some '\u2028'
  | 'P' => some '\u2029'
  | _ => none

def codeLength? : Char → Option Nat
  | 'x' => some 2
  | 'u' => some 4
  | 'U' => some 8
  | _ => none

/-- The value of the given number of hexadecimal digits, and what follows them. -/
def readCode? : Nat → Nat → List Char → Option (Nat × List Char)
  | 0, value, rest => some (value, rest)
  | _ + 1, _, [] => none
  | count + 1, value, c :: rest => do
    readCode? count (value * 16 + (← Json.hexDigit? c)) rest

def codeChar? (code : Nat) : Option Char :=
  if h : code.isValidChar then some (Char.ofNatAux code h) else none

/-- The character of an escape behind its backslash, and the number of characters that the
escape has there. -/
def readEscape? : List Char → Option (Char × Nat)
  | [] => none
  | c :: rest =>
    match codeLength? c with
    | some count => do
      let (code, _) ← readCode? count 0 rest
      return (← codeChar? code, count + 1)
    | none => (letterEscape? c).map fun escaped => (escaped, 1)

/-- The characters of a quoted scalar up to the next gap, an escaped line break or the
closing quote, and the number of characters in the text.  The first number bounds the
characters. -/
def quotedRun? (single : Bool) : Nat → List Char → Option (List Char × Nat)
  | 0, _ => some ([], 0)
  | _ + 1, [] => some ([], 0)
  | fuel + 1, c :: rest =>
    let character (c : Char) (width : Nat) : Option (List Char × Nat) :=
      (quotedRun? single fuel (rest.drop (width - 1))).map fun (run, count) =>
        (c :: run, width + count)
    if isGap c then some ([], 0)
    else if single then
      if c = '\'' then if rest.head? = some '\'' then character c 2 else some ([], 0)
      else character c 1
    else if c = '"' then some ([], 0)
    else if c = '\\' then
      if rest.head?.any isBreak then some ([], 0)
      else do
        let (escaped, width) ← readEscape? rest
        character escaped (width + 1)
    else character c 1

/-- Read on in a quoted scalar; the result holds the text from there and the place behind the
closing quote.  The first number bounds the steps. -/
def readQuoted? (single : Bool) : Nat → Cursor → Option (List Char × Cursor)
  | 0, _ => none
  | fuel + 1, cursor =>
    if cursor.atDocumentMark then none
    else do
      let (run, count) ← quotedRun? single fuel cursor.rest
      let cursor := cursor.advance count
      let closing := if single then '\'' else '"'
      let (gap, cursor) :=
        if cursor.peek? = some '\\' then ({ broken := true }, (cursor.advance 1).takeBreak.2)
        else ({}, cursor)
      if cursor.peek? = some closing then return (run, cursor.advance 1)
      let (gap, cursor) ← Gap.read? none fuel gap cursor
      if cursor.rest = [] then none
      let (more, cursor) ← readQuoted? single fuel cursor
      return (run ++ gap.fold ++ more, cursor)

inductive Chomping where
  | clip | strip | keep
deriving DecidableEq

def chompingOf? : Char → Option Chomping
  | '+' => some .keep
  | '-' => some .strip
  | _ => none

def incrementOf? (c : Char) : Option Nat :=
  if c.isDigit then some (c.toNat - '0'.toNat) else none

/-- Read the marks in the head of a block scalar, which come in either order.  An
indentation of zero is refused. -/
def readBlockHead? (cursor : Cursor) : Option (Chomping × Option Nat × Cursor) :=
  let checked (chomping : Chomping) (increment : Option Nat) (count : Nat) :=
    if increment = some 0 then none else some (chomping, increment, cursor.advance count)
  match cursor.rest with
  | [] => checked .clip none 0
  | first :: rest =>
    match chompingOf? first, incrementOf? first with
    | some chomping, _ =>
      match rest.head?.bind incrementOf? with
      | some increment => checked chomping (some increment) 2
      | none => checked chomping none 1
    | none, some increment =>
      match rest.head?.bind chompingOf? with
      | some chomping => checked chomping (some increment) 2
      | none => checked .clip (some increment) 1
    | none, none => checked .clip none 0

/-- Go over the indentation of a block scalar's lines and over its blank lines.  The
indentation is zero while it is not known, and then the widest one is returned beside the
breaks.  A tab in place of indentation is refused. -/
def readBlockBreaks? (indent : Nat) :
    Nat → Nat → List Char → Cursor → Option (Nat × List Char × Cursor)
  | 0, widest, breaks, cursor => some (widest, breaks, cursor)
  | fuel + 1, widest, breaks, cursor =>
    let spaces := (cursor.rest.takeWhile (· = ' ')).length
    let skipped := if indent = 0 then spaces else min spaces (indent - cursor.column)
    let place := cursor.advance skipped
    let widest := max widest place.column
    if (indent = 0 || place.column < indent) && place.peek? = some '\t' then none
    else if place.rest.head?.any isBreak then
      let (text, after) := place.takeBreak
      readBlockBreaks? indent fuel widest (breaks ++ text) after
    else some (widest, breaks, place)

/-- What stands between two lines of a block scalar: the break behind the first of them and
the blank lines behind that, and whether the first line began with a blank. -/
structure LineEnd where
  lineBreak : List Char := []
  blankLines : List Char := []
  startedBlank : Bool := false

/-- What the end of a line counts for in front of a next line.  In a folded scalar a break
between two lines that begin without blanks becomes a space, and it vanishes where blank
lines follow. -/
def LineEnd.fold (ending : LineEnd) (literal startsBlank : Bool) : List Char :=
  if !literal && ending.lineBreak.head? = some '\n' && !ending.startedBlank && !startsBlank then
    (if ending.blankLines = [] then [' '] else []) ++ ending.blankLines
  else ending.lineBreak ++ ending.blankLines

/-- What the end of the last line counts for. -/
def LineEnd.chomp (ending : LineEnd) : Chomping → List Char
  | .strip => []
  | .clip => ending.lineBreak
  | .keep => ending.lineBreak ++ ending.blankLines

/-- Read the lines of a block scalar that have its indentation, behind the end of a line.  The
result holds their text and the end of the last of them.  The first number bounds the
steps. -/
def readBlockLines? (literal : Bool) (indent : Nat) :
    Nat → LineEnd → Cursor → Option (List Char × LineEnd × Cursor)
  | 0, ending, cursor => some ([], ending, cursor)
  | fuel + 1, ending, cursor =>
    if cursor.column ≠ indent || cursor.rest = [] then some ([], ending, cursor)
    else do
      let startsBlank := cursor.rest.head?.any isBlank
      let line := cursor.rest.takeWhile fun c => !isBreak c
      let (lineBreak, after) := (cursor.advance line.length).takeBreak
      let (_, blankLines, next) ← readBlockBreaks? indent fuel 0 [] after
      let (more, last, cursor) ←
        readBlockLines? literal indent fuel ⟨lineBreak, blankLines, startsBlank⟩ next
      return (ending.fold literal startsBlank ++ line ++ more, last, cursor)

/-- Read a block scalar behind its mark, within a block of the given indentation.  The first
number bounds the steps. -/
def readBlock? (fuel : Nat) (literal : Bool) (parent : Int) (cursor : Cursor) :
    Option (List Char × Cursor) := do
  let (chomping, increment, afterHead) ← readBlockHead? cursor
  let start ← afterHead.finishLine?
  let given := increment.map fun count => (max parent 0).toNat + count
  let (widest, blankLines, place) ← readBlockBreaks? (given.getD 0) fuel 0 [] start
  let indent := given.getD (max (max widest (parent + 1).toNat) 1)
  let (text, last, after) ← readBlockLines? literal indent fuel { blankLines } place
  return (text ++ last.chomp chomping, after)

end ApiAssembly.Yaml
