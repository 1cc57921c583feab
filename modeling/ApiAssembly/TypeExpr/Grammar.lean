import ApiAssembly.TypeExpr.Basic
import ApiAssembly.TypeExpr.Token

/-!
# The grammar of type expressions

Type expressions are read from tokens, one function to a level of the grammar:

    union        := intersection ('|' union)?
    intersection := operand ('&' intersection)?
    operand      := '?' operand | '!' operand | '...' operand | primary ('[]' | '=')*
    primary      := name arguments? | number | string | '*' | '?'
                  | '(' union ')' | '{' (key ':' union),* '}'
    arguments    := '.'? '<' union (',' union)* '>'

Each function returns the tokens it left over, which are fewer than it was given; so
the levels call each other in a well-founded way.
-/

namespace ApiAssembly.TypeExpr

inductive Expectation where
  | greater
  | rightParenthesis
  | recordKey
  | colon
  | recordSeparator
deriving DecidableEq

def Expectation.message : Expectation → String
  | .greater => "`>`"
  | .rightParenthesis => "`)`"
  | .recordKey => "record key"
  | .colon => "`:` after record key"
  | .recordSeparator => "`,` or `\x7d` in record"

inductive GrammarError where
  | empty
  | unexpectedEnd
  | unexpectedToken (token : Token)
  | expected (expectation : Expectation)
  | trailing
deriving DecidableEq

def GrammarError.message : GrammarError → String
  | .empty => "empty type expression"
  | .unexpectedEnd => "unexpected end of type expression"
  | .unexpectedToken token => "unexpected token " ++ token.label
  | .expected expectation => "expected " ++ expectation.message
  | .trailing => "unexpected trailing input"

/-- A failure to read tokens, with the number of tokens from its place to the end. -/
structure GrammarFailure where
  remaining : Nat
  error : GrammarError
deriving DecidableEq

/-- The outcome of reading from the front of some tokens: fewer are left over. -/
abbrev Parsed (α : Type) (tokens : List Token) :=
  Except GrammarFailure (α × { rest : List Token // rest.length < tokens.length })

/-- A failure at the first of some tokens. -/
def failAt {α : Type} (tokens : List Token) (error : GrammarError) : Except GrammarFailure α :=
  .error ⟨tokens.length, error⟩

/-- Whether a token can begin an operand, which makes a question mark in front of it the
mark of a nullable type. -/
def startsOperand : Option Token → Bool
  | some (.word _) | some (.number _) | some (.quoted _) | some .leftParenthesis
  | some .leftBrace | some .star | some .question | some .bang | some .ellipsis => true
  | _ => false

/-- Apply the marks that follow a primary expression. -/
def suffixes (node : TypeExpr) : List Token → TypeExpr × List Token
  | .leftBracket :: .rightBracket :: rest => suffixes node.arrayOf rest
  | .equals :: rest => suffixes (.optional node) rest
  | rest => (node, rest)

theorem length_suffixes_le (node : TypeExpr) (tokens : List Token) :
    (suffixes node tokens).2.length ≤ tokens.length := by
  fun_induction suffixes node tokens <;> simp_all <;> omega

/-- The tokens between the angle brackets that follow a name, if a bracket opens. -/
def argumentTokens? : List Token → Option (List Token)
  | .less :: rest => some rest
  | .dot :: .less :: rest => some rest
  | _ => none

theorem length_argumentTokens?_lt {tokens rest : List Token}
    (found : argumentTokens? tokens = some rest) : rest.length < tokens.length := by
  unfold argumentTokens? at found
  split at found <;> cases found <;> simp +arith

/-- The tokens behind a demanded first token. -/
def take? (demanded : Token) :
    (tokens : List Token) → Option { rest : List Token // rest.length < tokens.length }
  | [] => none
  | token :: rest => if token = demanded then some ⟨rest, by simp⟩ else none

/-- The key of a record entry at the front of some tokens, and the tokens behind it. -/
def recordKey? : (tokens : List Token) →
    Option (String × { rest : List Token // rest.length < tokens.length })
  | .word key :: rest | .quoted key :: rest => some (key, ⟨rest, by simp⟩)
  | _ => none

mutual

/-- Alternatives, which nest to the right. -/
def readUnion (tokens : List Token) : Parsed TypeExpr tokens :=
  match readIntersection tokens with
  | .error failure => .error failure
  | .ok (left, ⟨rest, shorter⟩) =>
    match take? .pipe rest with
    | none => .ok (left, ⟨rest, shorter⟩)
    | some ⟨inner, less⟩ =>
      match readUnion inner with
      | .error failure => .error failure
      | .ok (right, ⟨after, fewer⟩) => .ok (.union left right, ⟨after, by omega⟩)
termination_by (tokens.length, 3)

def readIntersection (tokens : List Token) : Parsed TypeExpr tokens :=
  match readOperand tokens with
  | .error failure => .error failure
  | .ok (left, ⟨rest, shorter⟩) =>
    match take? .ampersand rest with
    | none => .ok (left, ⟨rest, shorter⟩)
    | some ⟨inner, less⟩ =>
      match readIntersection inner with
      | .error failure => .error failure
      | .ok (right, ⟨after, fewer⟩) => .ok (.intersection left right, ⟨after, by omega⟩)
termination_by (tokens.length, 2)

/-- An expression with the marks in front of it or behind it. -/
def readOperand (tokens : List Token) : Parsed TypeExpr tokens :=
  match tokens with
  | [] => failAt [] .unexpectedEnd
  | token :: rest =>
    if token = .bang then
      match readOperand rest with
      | .error failure => .error failure
      | .ok (inner, ⟨after, less⟩) => .ok (.notNullable inner, ⟨after, by simp; omega⟩)
    else if token = .ellipsis then
      match readOperand rest with
      | .error failure => .error failure
      | .ok (inner, ⟨after, less⟩) => .ok (.variadic inner, ⟨after, by simp; omega⟩)
    else if token = .question && startsOperand rest.head? then
      match readOperand rest with
      | .error failure => .error failure
      | .ok (inner, ⟨after, less⟩) => .ok (.nullable inner, ⟨after, by simp; omega⟩)
    else
      match readPrimary token rest with
      | .error failure => .error failure
      | .ok (node, ⟨after, less⟩) =>
        let suffixed := suffixes node after
        .ok (suffixed.1, ⟨suffixed.2, by
          have := length_suffixes_le node after
          simp only [suffixed]; omega⟩)
termination_by (tokens.length, 1)

/-- An expression without marks, which begins with the given token. -/
def readPrimary (token : Token) (rest : List Token) : Parsed TypeExpr (token :: rest) :=
  match token with
  | .word subject =>
    match found : argumentTokens? rest with
    | none => .ok (.name subject, ⟨rest, by simp⟩)
    | some inner =>
      match readArguments inner with
      | .error failure => .error failure
      | .ok (objects, ⟨after, less⟩) =>
        .ok (.generic subject objects, ⟨after, by
          have := length_argumentTokens?_lt found
          simp; omega⟩)
  | .number value => .ok (.number value, ⟨rest, by simp⟩)
  | .quoted text => .ok (.string text, ⟨rest, by simp⟩)
  | .star => .ok (.any, ⟨rest, by simp⟩)
  | .question => .ok (.unknown, ⟨rest, by simp⟩)
  | .leftParenthesis =>
    match readUnion rest with
    | .error failure => .error failure
    | .ok (inner, ⟨after, less⟩) =>
      match take? .rightParenthesis after with
      | none => failAt after (.expected .rightParenthesis)
      | some ⟨after, fewer⟩ => .ok (.parenthesis inner, ⟨after, by simp; omega⟩)
  | .leftBrace =>
    match readEntries rest with
    | .error failure => .error failure
    | .ok (entries, ⟨after, less⟩) => .ok (.record entries, ⟨after, by simp; omega⟩)
  | token => failAt (token :: rest) (.unexpectedToken token)
termination_by (rest.length + 1, 0)
decreasing_by
  · have := length_argumentTokens?_lt found
    exact .left _ _ (by omega)
  · exact .left _ _ (by omega)
  · exact .left _ _ (by omega)

/-- The arguments of a generic type up to the closing angle bracket. -/
def readArguments (tokens : List Token) : Parsed (List TypeExpr) tokens :=
  match readUnion tokens with
  | .error failure => .error failure
  | .ok (first, ⟨rest, shorter⟩) =>
    match take? .comma rest with
    | some ⟨inner, less⟩ =>
      match readArguments inner with
      | .error failure => .error failure
      | .ok (more, ⟨after, fewer⟩) => .ok (first :: more, ⟨after, by omega⟩)
    | none =>
      match take? .greater rest with
      | none => failAt rest (.expected .greater)
      | some ⟨after, less⟩ => .ok ([first], ⟨after, by omega⟩)
termination_by (tokens.length, 4)

/-- The entries of a record up to the closing brace.  A comma may stand behind the last
entry. -/
def readEntries (tokens : List Token) : Parsed (List (String × TypeExpr)) tokens :=
  match take? .rightBrace tokens with
  | some rest => .ok ([], rest)
  | none =>
    match recordKey? tokens with
    | none => failAt tokens (.expected .recordKey)
    | some (key, ⟨afterKey, _⟩) =>
      match take? .colon afterKey with
      | none => failAt afterKey (.expected .colon)
      | some ⟨body, _⟩ =>
        match readUnion body with
        | .error failure => .error failure
        | .ok (value, ⟨rest, _⟩) =>
          match take? .comma rest with
          | some ⟨inner, _⟩ =>
            match readEntries inner with
            | .error failure => .error failure
            | .ok (more, ⟨after, _⟩) => .ok ((key, value) :: more, ⟨after, by omega⟩)
          | none =>
            match take? .rightBrace rest with
            | none => failAt rest (.expected .recordSeparator)
            | some ⟨after, _⟩ => .ok ([(key, value)], ⟨after, by omega⟩)
termination_by (tokens.length, 0)

end

def readTokens (tokens : List Token) : Except GrammarFailure TypeExpr :=
  if tokens = [] then failAt [] .empty
  else match readUnion tokens with
    | .error failure => .error failure
    | .ok (node, rest) => if rest.val = [] then .ok node else failAt rest.val .trailing

end ApiAssembly.TypeExpr
