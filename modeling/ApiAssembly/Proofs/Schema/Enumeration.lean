import ApiAssembly.Proofs.Decimal.Rational
import ApiAssembly.Proofs.Typedef.Consistency

/-!
# Enumerated literals

A schema with an enumeration comes from alternatives that are literals of one kind, and its
values are those of the literals, in their order.  Strings are taken as they are.  Of numbers
the type is that of whole numbers where all of them are whole; but a whole number from 2 to the
power of 53 on has a floating-point number as its value, and a literal out of range has no number
at all but null in its place.
-/

namespace ApiAssembly

open Decimal (Binary64)

namespace TypeExpr

/-- The expressions directly within an expression. -/
def operands : TypeExpr → List TypeExpr
  | .union left right | .intersection left right => [left, right]
  | .parenthesis inner | .nullable inner | .notNullable inner | .optional inner
  | .variadic inner => [inner]
  | .record entries => entries.map Prod.snd
  | .generic _ objects => objects
  | .name _ | .number _ | .string _ | .any | .unknown => []

/-- An expression is within another one, at any depth, or is that expression itself. -/
inductive Within (part : TypeExpr) : TypeExpr → Prop where
  | self : Within part part
  | inner {operand whole : TypeExpr} (member : operand ∈ whole.operands)
      (within : Within part operand) : Within part whole

theorem Within.trans {part middle whole : TypeExpr} (inner : part.Within middle)
    (outer : middle.Within whole) : part.Within whole := by
  induction outer with
  | self => exact inner
  | inner member _ ih => exact .inner member ih

theorem within_of_mem_alternatives {expression alternative : TypeExpr}
    (member : alternative ∈ expression.alternatives) : alternative.Within expression := by
  fun_induction alternatives expression with
  | case1 left right ih =>
      rcases List.mem_cons.mp member with rfl | later
      · exact .inner (by simp [operands]) .self
      · exact .inner (by simp [operands]) (ih later)
  | case2 other =>
      obtain rfl := List.mem_singleton.mp member
      exact .self

theorem within_of_mem_conjuncts {expression conjunct : TypeExpr}
    (member : conjunct ∈ expression.conjuncts) : conjunct.Within expression := by
  fun_induction conjuncts expression with
  | case1 left right ih =>
      rcases List.mem_cons.mp member with rfl | later
      · exact .inner (by simp [operands]) .self
      · exact .inner (by simp [operands]) (ih later)
  | case2 other =>
      obtain rfl := List.mem_singleton.mp member
      exact .self

end TypeExpr

namespace Schema

/-- The value is the number of a literal: a whole number below 2 to the power of 53 in size as
such, and any other as a floating-point number. -/
inductive Represents : Binary64 → Value → Prop where
  | whole {literal : Binary64} {number : Int} (value : literal.rational? = some (number : ℚ))
      (small : number.natAbs < 2 ^ 53) : Represents literal (.whole number)
  | float {literal : Binary64} {number : ℚ} (value : literal.rational? = some number)
      (large : ∀ whole : Int, number = whole → 2 ^ 53 ≤ whole.natAbs) :
      Represents literal (.number (.float literal))

/-- What an enumeration has for a number literal: its number, and null for a literal out of
range, which has none. -/
structure EnumeratedAs (literal : Binary64) (value : Value) : Prop where
  number : literal.rational? ≠ none → Represents literal value
  overflow : literal.rational? = none → value = .null

theorem represents_literalValue {literal : Binary64} (finite : literal.isFinite = true) :
    Represents literal (literalValue literal) := by
  rw [literalValue]
  split
  next small =>
    rw [Bool.and_eq_true, decide_eq_true_eq] at small
    exact .whole (Binary64.rational?_of_isIntegral small.1) small.2
  next notSmall =>
    refine .float (Binary64.rational?_of_isFinite finite) fun whole same => ?_
    have value := (Binary64.rational?_of_isFinite finite).trans (congrArg some same)
    have integral := Binary64.isIntegral_of_rational? value
    have toInt : literal.toInt = whole := by
      have equal := (Binary64.rational?_of_isIntegral integral).symm.trans value
      exact_mod_cast Option.some.inj equal
    rw [integral, toInt, Bool.true_and, decide_eq_true_eq] at notSmall
    exact Nat.le_of_not_lt notSmall

theorem literalValue_of_not_isFinite {literal : Binary64} (infinite : literal.isFinite = false) :
    literalValue literal = .null := by
  simp [literalValue, Binary64.isIntegral, infinite]

theorem enumeratedAs_literalValue (literal : Binary64) :
    EnumeratedAs literal (literalValue literal) where
  number inRange :=
    represents_literalValue (by simpa using mt Binary64.rational?_eq_none_iff.mpr inRange)
  overflow outOfRange :=
    literalValue_of_not_isFinite (Binary64.rational?_eq_none_iff.mp outOfRange)

theorem forall₂_enumeratedAs (literals : List Binary64) :
    List.Forall₂ EnumeratedAs literals (literals.map literalValue) :=
  List.forall₂_map_right_iff.mpr
    (List.forall₂_same.mpr fun literal _ => enumeratedAs_literalValue literal)

/-- The enumeration of a schema is that of the alternatives of an expression, which are all of
them literals of one kind. -/
inductive Enumerates (expression : TypeExpr) (schema : Schema) : Prop where
  | strings (literals : List String) (type : schema.typeName = some "string")
      (chain : expression.alternatives = literals.map .string)
      (values : schema.enumeration = literals.map .string)
  | integers (literals : List Binary64) (type : schema.typeName = some "integer")
      (chain : expression.alternatives = literals.map .number)
      (values : List.Forall₂ Represents literals schema.enumeration)
      (whole : ∀ literal ∈ literals, ∃ number : Int, literal.rational? = some (number : ℚ))
  | numbers (literals : List Binary64) (type : schema.typeName = some "number")
      (chain : expression.alternatives = literals.map .number)
      (values : List.Forall₂ EnumeratedAs literals schema.enumeration)
      (broken : ∃ literal ∈ literals, ∀ number : Int, literal.rational? ≠ some (number : ℚ))

/-- If a schema has an enumeration, it is that of literals in the given expression. -/
def EnumeratesWithin (expression : TypeExpr) (schema : Schema) : Prop :=
  schema.enumeration ≠ [] → ∃ part : TypeExpr, part.Within expression ∧ Enumerates part schema

variable {expression operand : TypeExpr} {schema : Schema}

theorem Throughout.of_within (throughout : schema.Throughout (EnumeratesWithin operand))
    (operandWithin : operand.Within expression) :
    schema.Throughout (EnumeratesWithin expression) := by
  intro node within inhabited
  obtain ⟨part, inside, enumerates⟩ := throughout node within inhabited
  exact ⟨part, inside.trans operandWithin, enumerates⟩

theorem inner_oneOf (schemas : List Schema) : inner { oneOf := schemas } = schemas := by
  simp [inner, Items.schemas, Entries.values]

theorem inner_allOf (schemas : List Schema) :
    inner { typeName := some "object", allOf := schemas } = schemas := by
  simp [inner, Items.schemas, Entries.values]

theorem inner_properties (properties : Entries Schema) :
    inner { typeName := some "object", properties := some properties } =
      Entries.values properties := by
  simp [inner, Items.schemas]

theorem inner_arrayOf (element : Schema) : (arrayOf element).inner = [element] := by
  simp [inner, arrayOf, Items.schemas, Entries.values]

theorem parse_of_number {text : String} {literal : Binary64}
    (cut : TypeExpr.tokens text.toList = .ok [(0, .number literal)]) :
    TypeExpr.parse text = .ok (.number literal) :=
  TypeExpr.parse_of_tokens cut (TypeExpr.readTokens_eq_ok_iff_exists.mpr
    ⟨.single (.single (.suffixed (.atom (.number literal)) [])), rfl, rfl⟩)

end Schema

end ApiAssembly
