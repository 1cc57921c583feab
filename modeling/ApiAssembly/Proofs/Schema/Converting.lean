import ApiAssembly.Proofs.Entries
import ApiAssembly.Schema.OfTypeExpr
import Mathlib.Data.List.Forall2

/-!
# Successful conversions

A conversion succeeds if those of the expressions within it that it looks at succeed.  A
relation of expressions and schemas is therefore known for all successful conversions once it
is known to pass from these parts to the whole.
-/

namespace ApiAssembly

open Decimal (Binary64)

section Success

variable {ε α β : Type} {first : Except ε α} {result : β}

theorem exists_of_bind_eq_ok {next : α → Except ε β} (success : first >>= next = .ok result) :
    ∃ value, first = .ok value ∧ next value = .ok result := by
  cases first with
  | error error => cases success
  | ok value => exact ⟨value, rfl, success⟩

theorem exists_of_map_eq_ok {change : α → β} (success : first.map change = .ok result) :
    ∃ value, first = .ok value ∧ change value = result := by
  cases first with
  | error error => cases success
  | ok value => exact ⟨value, rfl, Except.ok.inj success⟩

end Success

namespace TypeExpr

/-- The alternatives of an expression, which is its only one unless it is a union. -/
def alternatives : TypeExpr → List TypeExpr
  | .union left right => left :: alternatives right
  | other => [other]

/-- The expressions that an expression requires at once. -/
def conjuncts : TypeExpr → List TypeExpr
  | .intersection left right => left :: conjuncts right
  | other => [other]

end TypeExpr

namespace Schema

theorem alternatives_of_stringLiterals? {expression : TypeExpr} {literals : List String}
    (found : stringLiterals? expression = some literals) :
    expression.alternatives = literals.map .string := by
  fun_induction stringLiterals? expression generalizing literals with
  | case1 value =>
      cases found
      rfl
  | case2 value right ih =>
      obtain ⟨rest, further, rfl⟩ := Option.map_eq_some_iff.mp found
      rw [TypeExpr.alternatives, ih further, List.map_cons]
  | case3 => cases found

theorem alternatives_of_numberLiterals? {expression : TypeExpr} {literals : List Binary64}
    (found : numberLiterals? expression = some literals) :
    expression.alternatives = literals.map .number := by
  fun_induction numberLiterals? expression generalizing literals with
  | case1 value =>
      cases found
      rfl
  | case2 value right ih =>
      obtain ⟨rest, further, rfl⟩ := Option.map_eq_some_iff.mp found
      rw [TypeExpr.alternatives, ih further, List.map_cons]
  | case3 => cases found

/-- A relation holds of a conversion when it holds of the conversions within it. -/
structure ClosedUnderConversion (holds : TypeExpr → Schema → Prop) : Prop where
  name (name : String) : holds (.name name) (ofName name)
  strings {expression : TypeExpr} {literals : List String}
    (chain : expression.alternatives = literals.map .string) :
    holds expression (ofStrings literals)
  numbers {expression : TypeExpr} {literals : List Binary64}
    (chain : expression.alternatives = literals.map .number) :
    holds expression (ofNumbers literals)
  alternatives {left right : TypeExpr} {schemas : List Schema}
    (each : List.Forall₂ holds (TypeExpr.union left right).alternatives schemas) :
    holds (.union left right) { oneOf := schemas }
  conjuncts {left right : TypeExpr} {schemas : List Schema}
    (each : List.Forall₂ holds (TypeExpr.intersection left right).conjuncts schemas) :
    holds (.intersection left right) { typeName := some "object", allOf := schemas }
  parenthesis {inner : TypeExpr} {schema : Schema} (inside : holds inner schema) :
    holds (.parenthesis inner) schema
  any : holds .any (ofType "\x7b\x7d")
  record {entries : List (String × TypeExpr)} {schemas : List Schema}
    (each : List.Forall₂ holds (entries.map Prod.snd) schemas) :
    holds (.record entries)
      { typeName := some "object",
        properties := some (Entries.putAll ((entries.map Prod.fst).zip schemas) []) }
  array {subject : String} {element : TypeExpr} {others : List TypeExpr} {schema : Schema}
    (isArray : isArrayName subject = true) (inside : holds element schema) :
    holds (.generic subject (element :: others)) (arrayOf schema)

variable {holds : TypeExpr → Schema → Prop}

mutual

/-- The induction over a successful conversion. -/
theorem ClosedUnderConversion.of_ofTypeExpr (closed : ClosedUnderConversion holds)
    {expression : TypeExpr} {schema : Schema} (success : ofTypeExpr expression = .ok schema) :
    holds expression schema := by
  cases expression with
  | name name =>
      rw [ofTypeExpr] at success
      cases success
      exact closed.name name
  | number value =>
      rw [ofTypeExpr] at success
      cases success
      exact closed.numbers rfl
  | string value =>
      rw [ofTypeExpr] at success
      cases success
      exact closed.strings rfl
  | union left right =>
      rw [ofTypeExpr] at success
      split at success
      next strings =>
        cases success
        exact closed.strings (alternatives_of_stringLiterals? strings)
      next numbers =>
        cases success
        exact closed.numbers (alternatives_of_numberLiterals? numbers)
      · obtain ⟨first, firstConverts, further⟩ := exists_of_bind_eq_ok success
        obtain ⟨rest, restConvert, whole⟩ := exists_of_bind_eq_ok further
        cases whole
        exact closed.alternatives
          (.cons (closed.of_ofTypeExpr firstConverts) (closed.of_ofAlternatives restConvert))
  | intersection left right =>
      rw [ofTypeExpr] at success
      obtain ⟨first, firstConverts, further⟩ := exists_of_bind_eq_ok success
      obtain ⟨rest, restConvert, whole⟩ := exists_of_bind_eq_ok further
      cases whole
      exact closed.conjuncts
        (.cons (closed.of_ofTypeExpr firstConverts) (closed.of_ofParts restConvert))
  | parenthesis inner =>
      rw [ofTypeExpr] at success
      exact closed.parenthesis (closed.of_ofTypeExpr success)
  | any =>
      rw [ofTypeExpr] at success
      cases success
      exact closed.any
  | record entries =>
      rw [ofTypeExpr] at success
      obtain ⟨properties, entriesConvert, whole⟩ := exists_of_bind_eq_ok success
      cases whole
      obtain ⟨schemas, each, rfl⟩ := closed.of_ofEntries entriesConvert
      exact closed.record each
  | generic subject objects =>
      unfold ofTypeExpr at success
      split at success
      next isArray =>
        cases objects with
        | nil => cases success
        | cons element others =>
            obtain ⟨schema, elementConverts, rfl⟩ := exists_of_map_eq_ok success
            exact closed.array isArray (closed.of_ofTypeExpr elementConverts)
      · cases success
  | unknown | nullable inner | notNullable inner | optional inner | variadic inner =>
      simp only [ofTypeExpr, reduceCtorEq] at success
termination_by (sizeOf expression, 0)

theorem ClosedUnderConversion.of_ofAlternatives (closed : ClosedUnderConversion holds)
    {expression : TypeExpr} {schemas : List Schema}
    (success : ofAlternatives expression = .ok schemas) :
    List.Forall₂ holds expression.alternatives schemas := by
  unfold ofAlternatives at success
  split at success
  next left right =>
    obtain ⟨first, firstConverts, further⟩ := exists_of_bind_eq_ok success
    obtain ⟨rest, restConvert, whole⟩ := exists_of_bind_eq_ok further
    cases whole
    exact .cons (closed.of_ofTypeExpr firstConverts) (closed.of_ofAlternatives restConvert)
  next noUnion =>
    obtain ⟨schema, converts, rfl⟩ := exists_of_map_eq_ok success
    rw [TypeExpr.alternatives]
    · exact .cons (closed.of_ofTypeExpr converts) .nil
    · exact noUnion
termination_by (sizeOf expression, 1)

theorem ClosedUnderConversion.of_ofParts (closed : ClosedUnderConversion holds)
    {expression : TypeExpr} {schemas : List Schema}
    (success : ofParts expression = .ok schemas) :
    List.Forall₂ holds expression.conjuncts schemas := by
  unfold ofParts at success
  split at success
  next left right =>
    obtain ⟨first, firstConverts, further⟩ := exists_of_bind_eq_ok success
    obtain ⟨rest, restConvert, whole⟩ := exists_of_bind_eq_ok further
    cases whole
    exact .cons (closed.of_ofTypeExpr firstConverts) (closed.of_ofParts restConvert)
  next noIntersection =>
    obtain ⟨schema, converts, rfl⟩ := exists_of_map_eq_ok success
    rw [TypeExpr.conjuncts]
    · exact .cons (closed.of_ofTypeExpr converts) .nil
    · exact noIntersection
termination_by (sizeOf expression, 1)

theorem ClosedUnderConversion.of_ofEntries (closed : ClosedUnderConversion holds)
    {properties converted : Entries Schema} {entries : List (String × TypeExpr)}
    (success : ofEntries properties entries = .ok converted) :
    ∃ schemas, List.Forall₂ holds (entries.map Prod.snd) schemas ∧
      converted = Entries.putAll ((entries.map Prod.fst).zip schemas) properties := by
  match entries with
  | [] =>
      rw [ofEntries] at success
      cases success
      exact ⟨[], .nil, rfl⟩
  | (key, expression) :: rest =>
      rw [ofEntries] at success
      obtain ⟨schema, converts, later⟩ := exists_of_bind_eq_ok success
      obtain ⟨schemas, each, rfl⟩ := closed.of_ofEntries later
      exact ⟨schema :: schemas, .cons (closed.of_ofTypeExpr converts) each, rfl⟩
termination_by (sizeOf entries, 0)

end

theorem exists_of_mem_of_forall₂ {expressions : List TypeExpr} {schemas : List Schema}
    (each : List.Forall₂ holds expressions schemas) {schema : Schema}
    (member : schema ∈ schemas) : ∃ expression ∈ expressions, holds expression schema := by
  induction each with
  | nil => cases member
  | cons first _ ih =>
      rcases List.mem_cons.mp member with rfl | later
      · exact ⟨_, List.mem_cons_self, first⟩
      · obtain ⟨expression, among, inside⟩ := ih later
        exact ⟨expression, List.mem_cons_of_mem _ among, inside⟩

/-- The schemas of a record's properties are those of its entries. -/
theorem mem_of_mem_values_putAll_zip {keys : List String} {schemas : List Schema}
    {schema : Schema} (member : schema ∈ Entries.values (Entries.putAll (keys.zip schemas) [])) :
    schema ∈ schemas := by
  obtain ⟨entry, among, rfl⟩ := List.mem_map.mp member
  have each : ∀ pair ∈ keys.zip schemas, pair.2 ∈ schemas :=
    fun pair inside => (List.of_mem_zip inside).2
  exact Entries.forall_mem_ofPairs each entry among

end Schema

end ApiAssembly
