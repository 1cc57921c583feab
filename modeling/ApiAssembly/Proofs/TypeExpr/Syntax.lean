import ApiAssembly.TypeExpr.Grammar

/-!
# Derivations of type expressions

The grammar of type expressions as the data of its derivations, with one type to a
nonterminal and one constructor to an alternative:

    union        := intersection | intersection '|' union
    intersection := operand | operand '&' intersection
    operand      := ('?' | '!' | '...') operand | primary ('[' ']' | '=')*
    primary      := name | number | string | '*' | '?' | name '.'? '<' arguments '>'
                  | '(' union ')' | '{' entries '}'
    arguments    := union | union ',' arguments
    entries      := nothing | key ':' union | key ':' union ',' entries

A derivation is written as the tokens at its leaves, and it stands for a tree.
-/

namespace ApiAssembly.TypeExpr

open Decimal (Binary64)

/-- The marks in front of an operand. -/
inductive Mark where
  | question
  | bang
  | ellipsis

/-- The marks behind a primary expression. -/
inductive Suffix where
  | brackets
  | equals

/-- The primary expressions of one token. -/
inductive Atom where
  | word (name : String)
  | number (value : Binary64)
  | quoted (text : String)
  | star
  | question

/-- The two spellings of the key of a record entry. -/
inductive Key where
  | word (name : String)
  | quoted (text : String)

mutual

inductive UnionSyntax where
  | single (only : IntersectionSyntax)
  | alternatives (left : IntersectionSyntax) (right : UnionSyntax)

inductive IntersectionSyntax where
  | single (only : OperandSyntax)
  | both (left : OperandSyntax) (right : IntersectionSyntax)

inductive OperandSyntax where
  | marked (mark : Mark) (inner : OperandSyntax)
  | suffixed (primary : PrimarySyntax) (marks : List Suffix)

inductive PrimarySyntax where
  | atom (atom : Atom)
  | generic (subject : String) (dotted : Bool) (arguments : ArgumentsSyntax)
  | parenthesis (inner : UnionSyntax)
  | record (entries : EntriesSyntax)

inductive ArgumentsSyntax where
  | last (argument : UnionSyntax)
  | more (argument : UnionSyntax) (others : ArgumentsSyntax)

inductive EntriesSyntax where
  | none
  | last (key : Key) (value : UnionSyntax)
  | more (key : Key) (value : UnionSyntax) (others : EntriesSyntax)

end

def Mark.token : Mark → Token
  | .question => .question
  | .bang => .bang
  | .ellipsis => .ellipsis

def Mark.apply : Mark → TypeExpr → TypeExpr
  | .question => .nullable
  | .bang => .notNullable
  | .ellipsis => .variadic

def Suffix.tokens : Suffix → List Token
  | .brackets => [.leftBracket, .rightBracket]
  | .equals => [.equals]

def Suffix.apply : TypeExpr → Suffix → TypeExpr
  | node, .brackets => .generic "Array" [node]
  | node, .equals => .optional node

def Atom.token : Atom → Token
  | .word text => .word text
  | .number value => .number value
  | .quoted text => .quoted text
  | .star => .star
  | .question => .question

def Atom.tree : Atom → TypeExpr
  | .word text => .name text
  | .number value => .number value
  | .quoted text => .string text
  | .star => .any
  | .question => .unknown

def Key.token : Key → Token
  | .word text => .word text
  | .quoted text => .quoted text

def Key.name : Key → String
  | .word text => text
  | .quoted text => text

mutual

/-- The tokens at the leaves of a derivation. -/
def UnionSyntax.tokens : UnionSyntax → List Token
  | .single only => only.tokens
  | .alternatives left right => left.tokens ++ .pipe :: right.tokens

def IntersectionSyntax.tokens : IntersectionSyntax → List Token
  | .single only => only.tokens
  | .both left right => left.tokens ++ .ampersand :: right.tokens

def OperandSyntax.tokens : OperandSyntax → List Token
  | .marked mark inner => mark.token :: inner.tokens
  | .suffixed primary marks => primary.tokens ++ marks.flatMap Suffix.tokens

def PrimarySyntax.tokens : PrimarySyntax → List Token
  | .atom atom => [atom.token]
  | .generic subject dotted arguments =>
    .word subject :: (if dotted then [.dot] else []) ++
      .less :: arguments.tokens ++ [.greater]
  | .parenthesis inner => .leftParenthesis :: inner.tokens ++ [.rightParenthesis]
  | .record entries => .leftBrace :: entries.tokens ++ [.rightBrace]

def ArgumentsSyntax.tokens : ArgumentsSyntax → List Token
  | .last argument => argument.tokens
  | .more argument others => argument.tokens ++ .comma :: others.tokens

def EntriesSyntax.tokens : EntriesSyntax → List Token
  | .none => []
  | .last key value => key.token :: .colon :: value.tokens
  | .more key value others => key.token :: .colon :: value.tokens ++ .comma :: others.tokens

end

mutual

/-- The tree that a derivation stands for. -/
def UnionSyntax.tree : UnionSyntax → TypeExpr
  | .single only => only.tree
  | .alternatives left right => .union left.tree right.tree

def IntersectionSyntax.tree : IntersectionSyntax → TypeExpr
  | .single only => only.tree
  | .both left right => .intersection left.tree right.tree

def OperandSyntax.tree : OperandSyntax → TypeExpr
  | .marked mark inner => mark.apply inner.tree
  | .suffixed primary marks => marks.foldl Suffix.apply primary.tree

def PrimarySyntax.tree : PrimarySyntax → TypeExpr
  | .atom atom => atom.tree
  | .generic subject _ arguments => .generic subject arguments.trees
  | .parenthesis inner => .parenthesis inner.tree
  | .record entries => .record entries.trees

def ArgumentsSyntax.trees : ArgumentsSyntax → List TypeExpr
  | .last argument => [argument.tree]
  | .more argument others => argument.tree :: others.trees

def EntriesSyntax.trees : EntriesSyntax → List (String × TypeExpr)
  | .none => []
  | .last key value => [(key.name, value.tree)]
  | .more key value others => (key.name, value.tree) :: others.trees

end

end ApiAssembly.TypeExpr
