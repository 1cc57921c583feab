import ApiAssembly.Decimal.Shortest
import ApiAssembly.Value.Basic

/-!
# Writing JSON

A value is written either compactly, without any space, or spread over lines that
are indented by two spaces a level.
-/

namespace ApiAssembly.Json

open Decimal (Layout)

/-- Floating-point numbers are positional from `0.00001` up to sixteen digits in front of
the point, and an exponent always has its sign. -/
def numberLayout : Layout := ⟨-5, 16, true⟩

/-- A number.  What is not finite has no number in JSON and becomes null. -/
def writeNumber : Number → List Char
  | .whole value => Decimal.intDigits value
  | .float value => if value.isFinite then numberLayout.finite value else "null".toList

/-- A character within quotes.  Only quotes, backslashes and control characters are
escaped. -/
def escape (c : Char) : List Char :=
  if c = '"' then ['\\', '"']
  else if c = '\\' then ['\\', '\\']
  else if c = '\n' then ['\\', 'n']
  else if c = '\r' then ['\\', 'r']
  else if c = '\t' then ['\\', 't']
  else if c = '\x08' then ['\\', 'b']
  else if c = '\x0c' then ['\\', 'f']
  else if c.toNat < 0x20 then
    ['\\', 'u', '0', '0', (c.toNat / 16).digitChar, (c.toNat % 16).digitChar]
  else [c]

/-- A text within quotes. -/
def writeString (text : String) : List Char :=
  '"' :: text.toList.flatMap escape ++ ['"']

def writeScalar : Value → List Char
  | .bool true => "true".toList
  | .bool false => "false".toList
  | .number value => writeNumber value
  | .string text => writeString text
  | _ => "null".toList

mutual

/-- A value without spaces. -/
def compactChars : Value → List Char
  | .array items => '[' :: compactItems items ++ [']']
  | .object members => '{' :: compactMembers members ++ ['}']
  | scalar => writeScalar scalar

def compactItems : List Value → List Char
  | [] => []
  | [item] => compactChars item
  | item :: rest => compactChars item ++ ',' :: compactItems rest

def compactMembers : List (String × Value) → List Char
  | [] => []
  | [(key, value)] => writeString key ++ ':' :: compactChars value
  | (key, value) :: rest =>
    writeString key ++ ':' :: compactChars value ++ ',' :: compactMembers rest

end

/-- A line break and the indentation of a level. -/
def lineBreak (level : Nat) : List Char :=
  '\n' :: List.replicate (2 * level) ' '

mutual

/-- A value over lines, which starts on a line of the given level. -/
def prettyChars (level : Nat) : Value → List Char
  | .array [] => ['[', ']']
  | .array items => '[' :: prettyItems (level + 1) items ++ lineBreak level ++ [']']
  | .object [] => ['{', '}']
  | .object members => '{' :: prettyMembers (level + 1) members ++ lineBreak level ++ ['}']
  | scalar => writeScalar scalar

def prettyItems (level : Nat) : List Value → List Char
  | [] => []
  | [item] => lineBreak level ++ prettyChars level item
  | item :: rest => lineBreak level ++ prettyChars level item ++ ',' :: prettyItems level rest

def prettyMembers (level : Nat) : List (String × Value) → List Char
  | [] => []
  | [(key, value)] =>
    lineBreak level ++ writeString key ++ ':' :: ' ' :: prettyChars level value
  | (key, value) :: rest =>
    lineBreak level ++ writeString key ++ ':' :: ' ' :: prettyChars level value ++
      ',' :: prettyMembers level rest

end

def compact (value : Value) : String :=
  String.ofList (compactChars value)

def pretty (value : Value) : String :=
  String.ofList (prettyChars 0 value)

end ApiAssembly.Json
