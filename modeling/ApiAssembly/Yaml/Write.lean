import ApiAssembly.Json.Writer
import ApiAssembly.Yaml.Style

/-!
# Writing YAML

A value is written in blocks with an indentation of two spaces a level; the items of a
sequence stand below the beginning of their key.  Empty sequences and mappings are
written in brackets and braces.
-/

namespace ApiAssembly.Yaml

open Decimal (Layout)

/-- Floating-point numbers are positional from `0.00001` up to sixteen digits in front of
the point, and an exponent has no sign unless it is negative. -/
def numberLayout : Layout := ⟨-5, 16, false⟩

def writeNumber : Number → List Char
  | .whole value => Decimal.intDigits value
  | .float value => if value.isFinite then numberLayout.finite value else "null".toList

def spaces (count : Nat) : List Char :=
  List.replicate count ' '

/-- A text whose lines behind the first have an indentation.  The flag tells whether the text
begins behind a break. -/
def indentLines (indent : Nat) (behindBreak : Bool) : List Char → List Char
  | [] => []
  | c :: rest =>
    if isBreak c then c :: indentLines indent true rest
    else (if behindBreak then spaces indent else []) ++ c :: indentLines indent false rest

/-- The mark in front of a literal text whose first line begins with a blank or is empty. -/
def indentationMark (text : List Char) : List Char :=
  if text.head?.any fun c => c = ' ' || isBreak c then ['2'] else []

/-- The mark in front of a literal text without a break at its end, or with several. -/
def chompingMark (text : List Char) : List Char :=
  match text.reverse with
  | [] => ['-']
  | [last] => if isBreak last then ['+'] else ['-']
  | last :: previous :: _ =>
    if !isBreak last then ['-'] else if isBreak previous then ['+'] else []

/-- A text as a literal block. -/
def writeLiteral (indent : Nat) (text : List Char) : List Char :=
  '|' :: indentationMark text ++ chompingMark text ++ '\n' :: indentLines indent true text

def writeSingle (indent : Nat) (text : List Char) : List Char :=
  let doubled := text.flatMap fun c => if c = '\'' then ['\'', '\''] else [c]
  '\'' :: indentLines indent false (doubled ++ ['\''])

def escapeLetter? : Char → Option Char
  | '\x00' => some '0'
  | '\x07' => some 'a'
  | '\x08' => some 'b'
  | '\t' => some 't'
  | '\n' => some 'n'
  | '\x0b' => some 'v'
  | '\x0c' => some 'f'
  | '\r' => some 'r'
  | '\x1b' => some 'e'
  | '"' => some '"'
  | '\\' => some '\\'
  | '\u0085' => some 'N'
  | '\u2028' => some 'L'
  | '\u2029' => some 'P'
  | _ => none

/-- A number as the given count of hexadecimal digits. -/
def hexDigits : Nat → Nat → List Char
  | 0, _ => []
  | count + 1, code => hexDigits count (code / 16) ++ [(code % 16).digitChar.toUpper]

def escapeCode (c : Char) : List Char :=
  if c.toNat < 0x100 then 'x' :: hexDigits 2 c.toNat
  else if c.toNat < 0x10000 then 'u' :: hexDigits 4 c.toNat
  else 'U' :: hexDigits 8 c.toNat

def escape (c : Char) : List Char :=
  match escapeLetter? c with
  | some letter => ['\\', letter]
  | none => if isPrintable c then [c] else '\\' :: escapeCode c

def writeDouble (text : List Char) : List Char :=
  '"' :: text.flatMap escape ++ ['"']

/-- A text in its style; its further lines have the given indentation. -/
def writeText (indent : Nat) (text : String) : List Char :=
  match styleOf text with
  | .plain => text.toList
  | .single => writeSingle indent text.toList
  | .double => writeDouble text.toList
  | .literal => writeLiteral indent text.toList

/-- A value that is no block: a scalar, or a sequence or mapping without entries. -/
def writeFlat (indent : Nat) : Value → List Char
  | .null => "null".toList
  | .bool true => "true".toList
  | .bool false => "false".toList
  | .number value => writeNumber value
  | .string text => writeText indent text
  | .array _ => "[]".toList
  | .object _ => "\x7b\x7d".toList

/-- A text with a line feed at its end, unless it ends with a break. -/
def closeLine (text : List Char) : List Char :=
  if text.getLast?.any isBreak then text else text ++ ['\n']

mutual

/-- A value whose first line begins at the column of its indentation. -/
def writeInline (indent : Nat) : Value → List Char
  | .array [] => writeFlat indent (.array [])
  | .array items => writeItems indent items
  | .object [] => writeFlat indent (.object [])
  | .object members => writeMembers indent members
  | scalar => writeFlat indent scalar

/-- A value behind a key of the given indentation. -/
def writeBehindKey (indent : Nat) : Value → List Char
  | .array [] => ' ' :: writeFlat indent (.array [])
  | .array items => '\n' :: spaces indent ++ writeItems indent items
  | .object [] => ' ' :: writeFlat indent (.object [])
  | .object members => '\n' :: spaces (indent + 2) ++ writeMembers (indent + 2) members
  | scalar => ' ' :: writeFlat (indent + 2) scalar

def writeItems (indent : Nat) : List Value → List Char
  | [] => []
  | [item] => '-' :: ' ' :: closeLine (writeInline (indent + 2) item)
  | item :: rest =>
    '-' :: ' ' :: closeLine (writeInline (indent + 2) item) ++ spaces indent ++
      writeItems indent rest

/-- An entry of a mapping: the key with the value behind it, or, where the key does not fit
in front of a colon, the key and the value with marks of their own. -/
def writeMember (indent : Nat) : String × Value → List Char
  | (key, value) =>
    if isSimpleKey key then closeLine (writeText indent key ++ ':' :: writeBehindKey indent value)
    else
      '?' :: ' ' :: closeLine (writeText (indent + 2) key) ++ spaces indent ++
        ':' :: ' ' :: closeLine (writeInline (indent + 2) value)

def writeMembers (indent : Nat) : List (String × Value) → List Char
  | [] => []
  | [member] => writeMember indent member
  | member :: rest => writeMember indent member ++ spaces indent ++ writeMembers indent rest

end

def write (value : Value) : String :=
  String.ofList (closeLine
    (match value with
      | .string text => writeText 2 text
      | other => writeInline 0 other))

end ApiAssembly.Yaml
