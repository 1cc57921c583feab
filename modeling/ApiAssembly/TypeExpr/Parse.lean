import ApiAssembly.TypeExpr.Grammar

/-!
# Reading type expressions

The way from the text of a type expression to its tree, and the error of a text that
has none, with the byte offset at which it was found.
-/

namespace ApiAssembly.TypeExpr

inductive TextFault where
  | token (error : TokenError)
  | grammar (error : GrammarError)
deriving DecidableEq

def TextFault.message : TextFault → String
  | .token error => error.message
  | .grammar error => error.message

/-- A text that is not a type expression, and the offset at which this shows. -/
structure TextError where
  expression : String
  offset : Nat
  fault : TextFault
deriving DecidableEq

def TextError.message (error : TextError) : String :=
  "invalid type expression `" ++ error.expression ++ "` at offset " ++
    String.ofList (Nat.toDigits 10 error.offset) ++ ": " ++ error.fault.message

/-- The offset of the place from which the given number of tokens is left; behind the
last token it is the end of the text. -/
def offsetFromEnd (textEnd : Nat) (tokens : List (Nat × Token)) (remaining : Nat) : Nat :=
  match tokens.drop (tokens.length - remaining) with
  | (offset, _) :: _ => offset
  | [] => textEnd

def parse (text : String) : Except TextError TypeExpr :=
  match tokens text.toList with
  | .error (offset, error) => .error ⟨text, offset, .token error⟩
  | .ok located =>
    match readTokens (located.map Prod.snd) with
    | .error failure =>
      let textEnd := Text.byteLength text.toList
      .error ⟨text, offsetFromEnd textEnd located failure.remaining, .grammar failure.error⟩
    | .ok node => .ok node

end ApiAssembly.TypeExpr
