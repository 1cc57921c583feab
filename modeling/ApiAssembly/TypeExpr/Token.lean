import ApiAssembly.Decimal.Literal
import ApiAssembly.Text.Line
import ApiAssembly.Text.Numeric

/-!
# Tokens of type expressions

A type expression is cut into tokens, each with the byte offset at which it begins.
Blanks separate tokens and belong to none.  The main statement is that every token
takes at least one character, so cutting comes to an end.
-/

namespace ApiAssembly.TypeExpr

open Decimal (Binary64)

inductive Token where
  | word (name : String)
  | number (value : Binary64)
  | quoted (text : String)
  | pipe
  | ampersand
  | leftParenthesis
  | rightParenthesis
  | leftBrace
  | rightBrace
  | leftBracket
  | rightBracket
  | less
  | greater
  | colon
  | comma
  | dot
  | ellipsis
  | star
  | question
  | bang
  | equals
deriving DecidableEq

def Token.label : Token → String
  | .word _ => "Ident"
  | .number _ => "Number"
  | .quoted _ => "Str"
  | .pipe => "Pipe"
  | .ampersand => "Amp"
  | .leftParenthesis => "LParen"
  | .rightParenthesis => "RParen"
  | .leftBrace => "LBrace"
  | .rightBrace => "RBrace"
  | .leftBracket => "LBracket"
  | .rightBracket => "RBracket"
  | .less => "Lt"
  | .greater => "Gt"
  | .colon => "Colon"
  | .comma => "Comma"
  | .dot => "Dot"
  | .ellipsis => "Ellipsis"
  | .star => "Star"
  | .question => "Question"
  | .bang => "Bang"
  | .equals => "Eq"

inductive TokenError where
  | unexpectedCharacter (c : Char)
  | unterminatedString
  | invalidNumber (literal : String)
deriving DecidableEq

def TokenError.message : TokenError → String
  | .unexpectedCharacter c => "unexpected character `" ++ c.toString ++ "`"
  | .unterminatedString => "unterminated string literal"
  | .invalidNumber literal => "invalid number `" ++ literal ++ "`"

/-- Characters with which a word begins. -/
def isWordStart (c : Char) : Bool :=
  Text.isAlphabetic c || c = '_' || c = '$'

/-- Characters that continue a word. -/
def isWordPart (c : Char) : Bool :=
  Text.isAlphanumeric c || c = '_' || c = '$'

/-- The tokens of one character.  The dot is not among them, since three dots are one
token. -/
def punctuation? : Char → Option Token
  | '|' => some .pipe
  | '&' => some .ampersand
  | '(' => some .leftParenthesis
  | ')' => some .rightParenthesis
  | '{' => some .leftBrace
  | '}' => some .rightBrace
  | '[' => some .leftBracket
  | ']' => some .rightBracket
  | '<' => some .less
  | '>' => some .greater
  | ':' => some .colon
  | ',' => some .comma
  | '*' => some .star
  | '?' => some .question
  | '!' => some .bang
  | '=' => some .equals
  | _ => none

/-- The characters that continue a word, and what follows.  A dot continues a word where a
word could begin behind it. -/
def wordRun : List Char → List Char × List Char
  | [] => ([], [])
  | c :: rest =>
    if isWordPart c || (c = '.' && rest.head?.any isWordStart) then
      let (run, after) := wordRun rest
      (c :: run, after)
    else ([], c :: rest)

/-- The characters that continue a number, and what follows: digits, the letters of an
exponent, signs behind such a letter, and dots in front of a digit. -/
def numberRun (previous : Char) : List Char → List Char × List Char
  | [] => ([], [])
  | c :: rest =>
    if c.isDigit || c = 'e' || c = 'E'
        || ((c = '-' || c = '+') && (previous = 'e' || previous = 'E'))
        || (c = '.' && rest.head?.any Char.isDigit) then
      let (run, after) := numberRun c rest
      (c :: run, after)
    else ([], c :: rest)

/-- The rest of a string literal behind its opening quote, and what follows the closing
quote.  A backslash makes the next character part of the string, whatever it is. -/
def quotedRun (quote : Char) : List Char → Option (List Char × List Char)
  | [] => none
  | ['\\'] => none
  | '\\' :: c :: rest => (quotedRun quote rest).map fun (run, after) => (c :: run, after)
  | c :: rest =>
    if c = quote then some ([], rest)
    else (quotedRun quote rest).map fun (run, after) => (c :: run, after)

/-- The token that begins with a character that is not blank, and what follows it. -/
def firstToken (c : Char) (rest : List Char) : Except TokenError (Token × List Char) :=
  match punctuation? c with
  | some token => .ok (token, rest)
  | none =>
    if c = '.' then
      match rest with
      | '.' :: '.' :: after => .ok (.ellipsis, after)
      | _ => .ok (.dot, rest)
    else if c = '\'' || c = '"' then
      match quotedRun c rest with
      | some (text, after) => .ok (.quoted (String.ofList text), after)
      | none => .error .unterminatedString
    else if c.isDigit || ((c = '-' || c = '+') && rest.head?.any Char.isDigit) then
      let (run, after) := numberRun c rest
      match Decimal.readLiteral? (c :: run) with
      | some value => .ok (.number value, after)
      | none => .error (.invalidNumber (String.ofList (c :: run)))
    else if isWordStart c then
      let (run, after) := wordRun rest
      .ok (.word (String.ofList (c :: run)), after)
    else .error (.unexpectedCharacter c)

theorem length_wordRun_le (text : List Char) : (wordRun text).2.length ≤ text.length := by
  induction text with
  | nil => simp [wordRun]
  | cons c rest ih =>
    unfold wordRun
    split
    · simp; omega
    · simp

theorem length_numberRun_le (previous : Char) (text : List Char) :
    (numberRun previous text).2.length ≤ text.length := by
  induction text generalizing previous with
  | nil => simp [numberRun]
  | cons c rest ih =>
    have shorter := ih c
    unfold numberRun
    split
    · simp; omega
    · simp

theorem length_quotedRun_le {quote : Char} {text run after : List Char}
    (found : quotedRun quote text = some (run, after)) : after.length ≤ text.length := by
  fun_induction quotedRun quote text generalizing run after with
  | case1 => cases found
  | case2 => cases found
  | case3 c rest ih =>
    obtain ⟨⟨run, after⟩, inner, same⟩ := Option.map_eq_some_iff.mp found
    cases same
    have := ih inner
    simp; omega
  | case4 c rest => cases found; simp
  | case5 c rest _ _ _ ih =>
    obtain ⟨⟨run, after⟩, inner, same⟩ := Option.map_eq_some_iff.mp found
    cases same
    have := ih inner
    simp; omega

theorem length_firstToken_le {c : Char} {rest after : List Char} {token : Token}
    (found : firstToken c rest = .ok (token, after)) : after.length ≤ rest.length := by
  unfold firstToken at found
  split at found
  · cases found; exact Nat.le_refl _
  split at found
  · split at found <;> cases found <;> simp; omega
  split at found
  · split at found <;> cases found
    exact length_quotedRun_le (by assumption)
  split at found
  · dsimp only at found
    split at found <;> cases found
    exact length_numberRun_le c rest
  split at found
  · cases found; exact length_wordRun_le rest
  · cases found

/-- Cut a text into tokens with their offsets in a whole of the given number of bytes, of
which the text is the end. -/
def tokensWithin (total : Nat) :
    List Char → Except (Nat × TokenError) (List (Nat × Token))
  | [] => .ok []
  | c :: rest =>
    if Text.isBlank c then tokensWithin total rest
    else
      let offset := total - Text.byteLength (c :: rest)
      match _found : firstToken c rest with
      | .error error => .error (offset, error)
      | .ok (token, after) =>
        match tokensWithin total after with
        | .error error => .error error
        | .ok tokens => .ok ((offset, token) :: tokens)
termination_by text => text.length
decreasing_by
  · simp
  · have := length_firstToken_le _found
    simp; omega

def tokens (text : List Char) : Except (Nat × TokenError) (List (Nat × Token)) :=
  tokensWithin (Text.byteLength text) text

end ApiAssembly.TypeExpr
