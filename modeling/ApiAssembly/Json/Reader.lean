import ApiAssembly.Json.Number

/-!
# Reading JSON

The strict grammar of JSON: four blanks between tokens, no comments, no commas too
many, no control characters and no lone halves of surrogate pairs in strings.  Of
members with the same key the last value stands in the place of the first.
-/

namespace ApiAssembly.Json

/-- The blanks between tokens. -/
def isSpace (c : Char) : Bool :=
  c = ' ' || c = '\n' || c = '\t' || c = '\r'

def skipSpace (text : List Char) : List Char :=
  text.dropWhile isSpace

/-- The value of a hexadecimal digit of either case. -/
def hexDigit? (c : Char) : Option Nat :=
  if c.isDigit then some (c.toNat - '0'.toNat)
  else if 'a' ≤ c ∧ c ≤ 'f' then some (c.toNat - 'a'.toNat + 10)
  else if 'A' ≤ c ∧ c ≤ 'F' then some (c.toNat - 'A'.toNat + 10)
  else none

/-- The value of four hexadecimal digits. -/
def hexUnit? (a b c d : Char) : Option Nat := do
  return (((← hexDigit? a) * 16 + (← hexDigit? b)) * 16 + (← hexDigit? c)) * 16 + (← hexDigit? d)

/-- The character of a pair of surrogate halves. -/
def joinSurrogates? (high low : Nat) : Option Char :=
  if 0xDC00 ≤ low ∧ low ≤ 0xDFFF then
    some (Char.ofNat (0x10000 + (high - 0xD800) * 0x400 + (low - 0xDC00)))
  else none

/-- The character of an escape with one letter. -/
def simpleEscape? (c : Char) : Option Char :=
  if c = '"' ∨ c = '\\' ∨ c = '/' then some c
  else if c = 'b' then some '\x08'
  else if c = 'f' then some '\x0c'
  else if c = 'n' then some '\n'
  else if c = 'r' then some '\r'
  else if c = 't' then some '\t'
  else none

/-- Read the rest of a string behind its opening quote; return the characters and what
follows the closing quote. -/
def readString? : List Char → Option (List Char × List Char)
  | [] => none
  | '"' :: rest => some ([], rest)
  | '\\' :: 'u' :: a :: b :: c :: d :: rest => do
    let unit ← hexUnit? a b c d
    if 0xDC00 ≤ unit ∧ unit ≤ 0xDFFF then none
    else if 0xD800 ≤ unit ∧ unit ≤ 0xDBFF then
      match rest with
      | '\\' :: 'u' :: e :: f :: g :: h :: rest =>
        let joined ← joinSurrogates? unit (← hexUnit? e f g h)
        let (text, after) ← readString? rest
        return (joined :: text, after)
      | _ => none
    else
      let (text, after) ← readString? rest
      return (Char.ofNat unit :: text, after)
  | '\\' :: c :: rest => do
    let escaped ← simpleEscape? c
    let (text, after) ← readString? rest
    return (escaped :: text, after)
  | c :: rest =>
    if c.toNat < 0x20 ∨ c = '\\' then none
    else do
      let (text, after) ← readString? rest
      return (c :: text, after)

/-- Read a value whose text begins with a letter, a digit or a minus. -/
def readPlain? (text : List Char) : Option (Value × List Char) :=
  match text with
  | 'n' :: 'u' :: 'l' :: 'l' :: rest => some (.null, rest)
  | 't' :: 'r' :: 'u' :: 'e' :: rest => some (.bool true, rest)
  | 'f' :: 'a' :: 'l' :: 's' :: 'e' :: rest => some (.bool false, rest)
  | text => (readNumber? text).map fun (number, rest) => (.number number, rest)

mutual

/-- Read a value without blanks in front, and return what follows it.  The first argument
bounds the steps and the second the levels of nesting that are allowed. -/
def readValue? : Nat → Nat → List Char → Option (Value × List Char)
  | 0, _, _ => none
  | fuel + 1, levels, text =>
    match text with
    | '"' :: rest => do
      let (content, after) ← readString? rest
      return (.string (String.ofList content), after)
    | '[' :: rest =>
      match levels with
      | 0 => none
      | levels + 1 =>
        match skipSpace rest with
        | ']' :: after => some (.array [], after)
        | inner => do
          let (items, after) ← readItems? fuel levels inner
          return (.array items, after)
    | '{' :: rest =>
      match levels with
      | 0 => none
      | levels + 1 =>
        match skipSpace rest with
        | '}' :: after => some (.object [], after)
        | inner => do
          let (members, after) ← readMembers? fuel levels [] inner
          return (.object members, after)
    | text => readPlain? text

def readItems? : Nat → Nat → List Char → Option (List Value × List Char)
  | 0, _, _ => none
  | fuel + 1, levels, text => do
    let (item, after) ← readValue? fuel levels text
    match skipSpace after with
    | ',' :: rest =>
      let (items, after) ← readItems? fuel levels (skipSpace rest)
      return (item :: items, after)
    | ']' :: rest => return ([item], rest)
    | _ => none

/-- Read members up to the closing brace, in addition to those read before. -/
def readMembers? : Nat → Nat → Members → List Char → Option (Members × List Char)
  | 0, _, _, _ => none
  | fuel + 1, levels, members, text =>
    match text with
    | '"' :: rest => do
      let (key, after) ← readString? rest
      match skipSpace after with
      | ':' :: rest =>
        let (value, after) ← readValue? fuel levels (skipSpace rest)
        let members := Entries.put (String.ofList key) value members
        match skipSpace after with
        | ',' :: rest => readMembers? fuel levels members (skipSpace rest)
        | '}' :: rest => return (members, rest)
        | _ => none
      | _ => none
    | _ => none

end

/-- The levels of nesting that a text may have. -/
def nestingLimit : Nat := 127

/-- Read a text that is one value with at most the given levels of nesting.  Every second
step takes a character, so twice the length of the text bounds the steps. -/
def readWithin? (levels : Nat) (text : String) : Option Value := do
  let chars := skipSpace text.toList
  let (value, after) ← readValue? (2 * chars.length + 2) levels chars
  if skipSpace after = [] then some value else none

def read? (text : String) : Option Value :=
  readWithin? nestingLimit text

end ApiAssembly.Json
