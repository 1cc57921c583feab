import ApiAssembly.Text.Line
import ApiAssembly.Yaml.Cursor
import ApiAssembly.Yaml.Plain

/-!
# Styles of written texts

A text is written plainly where it reads back as itself, as a literal block where it
has line feeds, and within quotes otherwise.  Double quotes are kept for the
characters that only an escape can show.
-/

namespace ApiAssembly.Yaml

inductive Style where
  | plain | single | double | literal
deriving DecidableEq

def isPrintable (c : Char) : Bool :=
  let code := c.toNat
  code = 0x0A || (0x20 ≤ code && code ≤ 0x7E) || (0xA0 ≤ code && code ≤ 0xD7FF)
    || (0xE000 ≤ code && code ≤ 0xFFFD && code ≠ 0xFEFF) || 0x10000 ≤ code

/-- Whether a character of one kind stands directly in front of one of another kind. -/
def hasPair (first second : Char → Bool) : List Char → Bool
  | [] => false
  | c :: rest => (first c && rest.head?.any second) || hasPair first second rest

def indicators : List Char :=
  ['#', ',', '[', ']', '{', '}', '&', '*', '!', '|', '>', '\'', '"', '%', '@', '\x60']

/-- Whether a text begins as something other than plain text. -/
def startsWithIndicator : List Char → Bool
  | '-' :: '-' :: '-' :: _ | '.' :: '.' :: '.' :: _ => true
  | c :: rest => indicators.contains c || (['?', ':', '-'].contains c && gapFollows rest)
  | [] => false

/-- Whether a text holds the end of a key or the beginning of a comment.  The flag tells
whether there is a gap in front of the text. -/
def holdsIndicator (behindGap : Bool) : List Char → Bool
  | [] => false
  | c :: rest =>
    (c = ':' && gapFollows rest) || (c = '#' && behindGap) || holdsIndicator (isGap c) rest

/-- Whether a plain text would be read as something other than a text, or is a row of digits
that elsewhere may be read as a number. -/
def isAmbiguous (text : String) : Bool :=
  hasLeadingZero text.toList ||
    match plainOf text with
    | .text => false
    | _ => true

/-- Whether a text keeps its characters when it is written plainly on one line. -/
def fitsPlain (text : List Char) : Bool :=
  !startsWithIndicator text && !holdsIndicator true text && !text.any isBreak
    && text.head? ≠ some ' ' && text.getLast? ≠ some ' '

/-- Whether a text needs escapes in any style. -/
def needsEscape (text : List Char) : Bool :=
  text.any (fun c => !isPrintable c) || hasPair (· = ' ') isBreak text

def styleOf (text : String) : Style :=
  let chars := text.toList
  if needsEscape chars then .double
  else if chars.contains '\n' then if chars.getLast? = some ' ' then .double else .literal
  else if !isAmbiguous text && fitsPlain chars then .plain
  else if hasPair isBreak (· = ' ') chars then .double
  else .single

/-- Whether a text is written in front of a colon as a key, on one line and of moderate
length. -/
def isSimpleKey (text : String) : Bool :=
  !text.toList.any isBreak && Text.byteLength text.toList ≤ 128

end ApiAssembly.Yaml
