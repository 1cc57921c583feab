import ApiAssembly.Yaml.Scalar

/-!
# Tokens of YAML texts

A YAML text is cut into tokens, among them the beginnings and ends of blocks, which
only indentation shows.  A key that is not marked by a question mark is recognised by
the colon behind it; until then its place is kept as that of a possible key.
-/

namespace ApiAssembly.Yaml

inductive Token where
  | version (major minor : Nat)
  | tagHandle (handle base : List Char)
  | documentStart
  | documentEnd
  | blockSequenceStart
  | blockMappingStart
  | blockEnd
  | flowSequenceStart
  | flowSequenceEnd
  | flowMappingStart
  | flowMappingEnd
  | blockEntry
  | flowEntry
  | key
  | value
  | alias (name : List Char)
  | anchor (name : List Char)
  | tag (handle suffix : List Char)
  | scalar (plain : Bool) (text : List Char)
deriving DecidableEq

/-- A place where a key may begin: the number of tokens in front of it and its position.
A required key is an error unless a colon follows it on its line. -/
structure PossibleKey where
  required : Bool
  number : Nat
  index : Nat
  line : Nat
  column : Nat

/-- The state in which a text is cut into tokens. -/
structure Tokenizer where
  cursor : Cursor
  /-- A number that is greater than that of the characters in the text. -/
  bound : Nat
  reversed : List Token := []
  count : Nat := 0
  /-- The indentation of the innermost block, and those of the blocks around it. -/
  indent : Int := -1
  outerIndents : List Int := []
  /-- The possible key of the innermost brackets or block, and those of the brackets around
  it. -/
  possible : Option PossibleKey := none
  outer : List (Option PossibleKey) := []
  keyAllowed : Bool := true

namespace Tokenizer

def inFlow (state : Tokenizer) : Bool :=
  !state.outer.isEmpty

def push (state : Tokenizer) (token : Token) : Tokenizer :=
  { state with reversed := token :: state.reversed, count := state.count + 1 }

/-- The state with a token put in front of the tokens from the given number on. -/
def insert (state : Tokenizer) (number : Nat) (token : Token) : Tokenizer :=
  let later := state.count - number
  { state with
    reversed := state.reversed.take later ++ token :: state.reversed.drop later
    count := state.count + 1 }

/-- Give up the possible key, which is refused if it is required. -/
def dropKey? (state : Tokenizer) : Option Tokenizer :=
  if state.possible.any PossibleKey.required then none
  else some { state with possible := none }

/-- Note that a key may begin at the cursor, if one is allowed there. -/
def noteKey? (state : Tokenizer) : Option Tokenizer :=
  if state.keyAllowed then do
    let dropped ← state.dropKey?
    let place := state.cursor
    return { dropped with
      possible := some
        ⟨!state.inFlow && state.indent = place.column, state.count,
          place.index, place.line, place.column⟩ }
  else some state

/-- A possible key that the cursor has left behind: a key ends on its line and has at most
1024 characters. -/
def isStale (cursor : Cursor) (key : PossibleKey) : Bool :=
  key.line < cursor.line || key.index + 1024 < cursor.index

/-- Forget a possible key that is left behind, which is refused if it is required. -/
def refresh? (cursor : Cursor) : Option PossibleKey → Option (Option PossibleKey)
  | none => some none
  | some key =>
    if isStale cursor key then if key.required then none else some none
    else some (some key)

/-- Forget the possible keys that are left behind. -/
def dropStaleKeys? (state : Tokenizer) : Option Tokenizer := do
  let possible ← refresh? state.cursor state.possible
  let outer ← state.outer.mapM (refresh? state.cursor)
  return { state with possible, outer }

/-- End the blocks that are indented further than a column; the blocks around the
innermost one are given apart. -/
def unroll (column : Int) : List Int → Tokenizer → Tokenizer
  | [], state => state
  | around :: outerIndents, state =>
    if state.indent ≤ column then state
    else unroll column outerIndents
      { state.push .blockEnd with indent := around, outerIndents }

/-- End the blocks that are indented further than a column.  Within brackets indentation
does not count. -/
def unrollTo (state : Tokenizer) (column : Int) : Tokenizer :=
  if state.inFlow then state else unroll column state.outerIndents state

/-- Begin a block at a column that is indented further than the innermost block; its token
stands in front of the tokens from the given number on. -/
def roll (state : Tokenizer) (column number : Nat) (token : Token) : Tokenizer :=
  if !state.inFlow && state.indent < column then
    { state.insert number token with
      indent := column
      outerIndents := state.indent :: state.outerIndents }
  else state

/-- Add a token of the given number of characters at the cursor. -/
def take (state : Tokenizer) (count : Nat) (token : Token) : Tokenizer :=
  { state.push token with cursor := state.cursor.advance count }

/-- Go over blanks, comments and line breaks up to the next token.  Tabs count as blanks
where no key may begin.  The first argument bounds the number of lines. -/
def skipGaps : Nat → Tokenizer → Tokenizer
  | 0, state => state
  | fuel + 1, state =>
    let tabs := state.inFlow || !state.keyAllowed
    let cursor :=
      (state.cursor.advanceWhile fun c => c = ' ' || (tabs && c = '\t')).skipComment
    if cursor.rest.head?.any isBreak then
      skipGaps fuel { state with
        cursor := cursor.takeBreak.2
        keyAllowed := state.keyAllowed || !state.inFlow }
    else { state with cursor }

/-- Go over a byte order mark at the beginning of the text. -/
def skipByteOrderMark (state : Tokenizer) : Tokenizer :=
  if state.cursor.index = 0 && state.cursor.peek? = some '\ufeff' then
    { state with cursor := state.cursor.advance 1 }
  else state

/-- Read a number of at most nine digits in a directive. -/
def versionPart? (cursor : Cursor) : Option (Nat × Cursor) :=
  let digits := cursor.rest.takeWhile Char.isDigit
  if digits = [] || 9 < digits.length then none
  else some (Decimal.digitsValue digits, cursor.advance digits.length)

def versionDirective? (cursor : Cursor) : Option (Token × Cursor) := do
  let (major, afterMajor) ← versionPart? (cursor.advanceWhile isBlank)
  if afterMajor.peek? ≠ some '.' then none
  let (minor, after) ← versionPart? (afterMajor.advance 1)
  return (.version major minor, after)

/-- Read a tag handle, or the beginning of a tag that is none.  A directive takes complete
handles only. -/
def readHandle? (directive : Bool) (cursor : Cursor) : Option (List Char × Cursor) :=
  match cursor.rest with
  | '!' :: rest =>
    let name := rest.takeWhile isNameChar
    match rest.drop name.length with
    | '!' :: _ => some ('!' :: name ++ ['!'], cursor.advance (name.length + 2))
    | _ =>
      if directive && name ≠ [] then none
      else some ('!' :: name, cursor.advance (name.length + 1))
  | _ => none

/-- The marks that may occur in tags. -/
def isTagMark : Char → Bool
  | ';' | '/' | '?' | ':' | '@' | '&' | '=' | '+' | '$' | '.' | '!' | '~' | '*' | '\'' | '('
  | ')' | '%' => true
  | _ => false

/-- Characters of tags; commas and brackets are allowed where nothing else ends the tag. -/
def isTagChar (wide : Bool) (c : Char) : Bool :=
  isNameChar c || isTagMark c || (wide && (c = ',' || c = '[' || c = ']'))

/-- The byte of an escape with a percent sign, and what follows. -/
def escapedByte? : List Char → Option (Nat × List Char)
  | '%' :: high :: low :: rest => do
    return ((← Json.hexDigit? high) * 16 + (← Json.hexDigit? low), rest)
  | _ => none

/-- The bytes of a character in UTF-8 that follow its first byte, written as escapes. -/
def continuationBytes? : Nat → List Char → Option (List Nat × List Char)
  | 0, rest => some ([], rest)
  | count + 1, text => do
    let (byte, rest) ← escapedByte? text
    if byte / 0x40 ≠ 2 then none
    let (bytes, after) ← continuationBytes? count rest
    return (byte :: bytes, after)

/-- The character of a row of escaped bytes in UTF-8, and what follows. -/
def escapedChar? (text : List Char) : Option (Char × List Char) := do
  let (first, rest) ← escapedByte? text
  let (count, bits) ←
    if first < 0x80 then some (0, first)
    else if first / 0x20 = 6 then some (1, first % 0x20)
    else if first / 0x10 = 14 then some (2, first % 0x10)
    else if first / 0x08 = 30 then some (3, first % 0x08)
    else none
  let (bytes, after) ← continuationBytes? count rest
  let code := bytes.foldl (fun code byte => code * 0x40 + byte % 0x40) bits
  return (← codeChar? code, after)

/-- The characters of a tag, and what follows them. -/
def tagRun? (wide : Bool) : Nat → List Char → Option (List Char × List Char)
  | 0, text => some ([], text)
  | _ + 1, [] => some ([], [])
  | fuel + 1, c :: rest =>
    if c = '%' then do
      let (escaped, after) ← escapedChar? (c :: rest)
      let (run, after) ← tagRun? wide fuel after
      return (escaped :: run, after)
    else if isTagChar wide c then
      (tagRun? wide fuel rest).map fun (run, after) => (c :: run, after)
    else some ([], c :: rest)

def readTagText? (wide : Bool) (cursor : Cursor) : Option (List Char × Cursor) :=
  (tagRun? wide cursor.rest.length cursor.rest).map fun (run, rest) =>
    (run, cursor.advanceTo rest)

/-- Read the value of a directive that declares a tag handle. -/
def tagDirective? (cursor : Cursor) : Option (Token × Cursor) := do
  let (handle, afterHandle) ← readHandle? true (cursor.advanceWhile isBlank)
  if !afterHandle.rest.head?.any isBlank then none
  let (base, after) ← readTagText? true (afterHandle.advanceWhile isBlank)
  if base = [] || !gapFollows after.rest then none
  return (.tagHandle handle base, after)

/-- Read a directive behind its percent sign. -/
def directive? (cursor : Cursor) : Option (Token × Cursor) := do
  let name := cursor.rest.takeWhile isNameChar
  let afterName := cursor.advance name.length
  if !gapFollows afterName.rest then none
  let (token, after) ←
    if name = "YAML".toList then versionDirective? afterName
    else if name = "TAG".toList then tagDirective? afterName
    else none
  return (token, ← after.finishLine?)

def tag? (inFlow : Bool) (cursor : Cursor) : Option (Token × Cursor) := do
  let (token, after) ←
    match cursor.rest with
    | '!' :: '<' :: _ => do
      let (suffix, after) ← readTagText? true (cursor.advance 2)
      if suffix = [] || after.peek? ≠ some '>' then none
      else some (Token.tag [] suffix, after.advance 1)
    | _ => do
      let (handle, afterHandle) ← readHandle? false cursor
      let (suffix, after) ← readTagText? false afterHandle
      if 2 ≤ handle.length && handle.getLast? = some '!' then
        if suffix = [] then none else some (Token.tag handle suffix, after)
      else
        let suffix := handle.drop 1 ++ suffix
        some (if suffix = [] then Token.tag [] ['!'] else Token.tag ['!'] suffix, after)
  if gapFollows after.rest || (inFlow && after.peek? = some ',') then some (token, after)
  else none

/-- The marks that may follow the name of an anchor or alias directly. -/
def endsName : Char → Bool
  | '?' | ':' | ',' | ']' | '}' | '%' | '@' | '\x60' => true
  | _ => false

/-- Read the name of an anchor or alias behind its mark. -/
def anchorName? (cursor : Cursor) : Option (List Char × Cursor) :=
  let name := cursor.rest.takeWhile isNameChar
  let after := cursor.advance name.length
  let ends := gapFollows after.rest ||
    after.rest.head?.any endsName
  if name = [] || !ends then none else some (name, after)

/-- Cut off a directive or a mark of the document, which ends all blocks. -/
def endBlocks? (state : Tokenizer) : Option Tokenizer := do
  let dropped ← (state.unrollTo (-1)).dropKey?
  return { dropped with keyAllowed := false }

def openFlow? (state : Tokenizer) (token : Token) : Option Tokenizer := do
  let noted ← state.noteKey?
  return { noted.take 1 token with
    possible := none, outer := noted.possible :: noted.outer, keyAllowed := true }

def closeFlow? (state : Tokenizer) (token : Token) : Option Tokenizer := do
  let dropped ← state.dropKey?
  let (possible, outer) := match dropped.outer with
    | [] => (none, [])
    | possible :: outer => (possible, outer)
  return { dropped.take 1 token with possible, outer, keyAllowed := false }

def flowEntry? (state : Tokenizer) : Option Tokenizer := do
  let dropped ← state.dropKey?
  return { dropped.take 1 .flowEntry with keyAllowed := true }

/-- Begin a block at the cursor, where it must be allowed outside of brackets. -/
def beginBlock? (state : Tokenizer) (token : Token) : Option Tokenizer :=
  if state.inFlow then some state
  else if state.keyAllowed then
    some (state.roll state.cursor.column state.count token)
  else none

def blockEntry? (state : Tokenizer) : Option Tokenizer := do
  let begun ← (← state.beginBlock? .blockSequenceStart).dropKey?
  return { begun.take 1 .blockEntry with keyAllowed := true }

def key? (state : Tokenizer) : Option Tokenizer := do
  let begun ← (← state.beginBlock? .blockMappingStart).dropKey?
  return { begun.take 1 .key with keyAllowed := !state.inFlow }

/-- Cut off the colon of a value.  A possible key in front of it becomes one. -/
def value? (state : Tokenizer) : Option Tokenizer :=
  match state.possible with
  | some key =>
    let marked :=
      (state.insert key.number .key).roll key.column key.number .blockMappingStart
    some { marked.take 1 .value with possible := none, keyAllowed := false }
  | none => do
    let begun ← state.beginBlock? .blockMappingStart
    return { begun.take 1 .value with keyAllowed := !state.inFlow }

/-- Cut off a token that may begin a key, read from the cursor. -/
def content? (state : Tokenizer) (read : Option (Token × Cursor)) : Option Tokenizer := do
  let noted ← state.noteKey?
  let (token, cursor) ← read
  return { noted.push token with cursor, keyAllowed := false }

def blockScalar? (state : Tokenizer) (literal : Bool) : Option Tokenizer := do
  let dropped ← state.dropKey?
  let (text, cursor) ← readBlock? state.bound literal state.indent (state.cursor.advance 1)
  return { dropped.push (.scalar false text) with cursor, keyAllowed := true }

def quotedScalar? (state : Tokenizer) (single : Bool) : Option Tokenizer :=
  let start := state.cursor.advance 1
  state.content? <|
    (readQuoted? single state.bound start).map fun (text, cursor) =>
      (.scalar false text, cursor)

def plainScalar? (state : Tokenizer) : Option Tokenizer := do
  let noted ← state.noteKey?
  let start := state.cursor
  let (text, broken, cursor) ←
    readPlain? state.inFlow (state.indent + 1) state.bound {} start
  return { noted.push (.scalar true text) with cursor, keyAllowed := broken }

def isIndicator : Char → Bool
  | ',' | '[' | ']' | '{' | '}' | '#' | '&' | '*' | '!' | '|' | '>' | '\'' | '"' | '%' | '@'
  | '\x60' => true
  | _ => false

/-- Whether a plain scalar may begin with a character in front of a text. -/
def startsPlain (inFlow : Bool) (c : Char) (rest : List Char) : Bool :=
  if c = '-' then !rest.head?.any isBlank
  else if c = '?' || c = ':' then !inFlow && !gapFollows rest
  else !isGap c && !isIndicator c

/-- Cut off the next token, which begins at the cursor with the given character. -/
def token? (state : Tokenizer) (c : Char) (rest : List Char) : Option Tokenizer :=
  let cursor := state.cursor
  let inFlow := state.inFlow
  let gap := gapFollows rest
  if cursor.column = 0 && c = '%' then do
    let ended ← state.endBlocks?
    let (token, after) ← directive? (cursor.advance 1)
    return { ended.push token with cursor := after }
  else if cursor.atMark '-' then return (← state.endBlocks?).take 3 .documentStart
  else if cursor.atMark '.' then return (← state.endBlocks?).take 3 .documentEnd
  else if c = '[' then state.openFlow? .flowSequenceStart
  else if c = '{' then state.openFlow? .flowMappingStart
  else if c = ']' then state.closeFlow? .flowSequenceEnd
  else if c = '}' then state.closeFlow? .flowMappingEnd
  else if c = ',' then state.flowEntry?
  else if c = '-' && gap then state.blockEntry?
  else if c = '?' && (inFlow || gap) then state.key?
  else if c = ':' && (inFlow || gap) then state.value?
  else if c = '*' then
    state.content? ((anchorName? (cursor.advance 1)).map fun (name, after) =>
      (.alias name, after))
  else if c = '&' then
    state.content? ((anchorName? (cursor.advance 1)).map fun (name, after) =>
      (.anchor name, after))
  else if c = '!' then state.content? (tag? inFlow cursor)
  else if c = '|' && !inFlow then state.blockScalar? true
  else if c = '>' && !inFlow then state.blockScalar? false
  else if c = '\'' then state.quotedScalar? true
  else if c = '"' then state.quotedScalar? false
  else if startsPlain inFlow c rest then state.plainScalar?
  else none

/-- Cut off all tokens; the first argument bounds their number. -/
def run? : Nat → Tokenizer → Option (List Token)
  | 0, _ => none
  | fuel + 1, state => do
    let reached := skipGaps state.bound state.skipByteOrderMark
    let fresh ← reached.dropStaleKeys?
    match fresh.cursor.rest with
    | [] =>
      let ended ← (fresh.unrollTo (-1)).dropKey?
      return ended.reversed.reverse
    | c :: rest => run? fuel (← (fresh.unrollTo fresh.cursor.column).token? c rest)

end Tokenizer

/-- The tokens of a text.  Every token but those of blocks takes a character. -/
def tokens? (text : List Char) : Option (List Token) :=
  let bound := text.length + 1
  if text.all isAllowed then Tokenizer.run? bound { cursor := { rest := text }, bound }
  else none

end ApiAssembly.Yaml
