import ApiAssembly.Proofs.Schema.Reference

/-!
# The first fault of an expression

An expression can be at fault itself, because its kind has no schema or because it applies a
type to others that is no array type.  A conversion goes through an expression from left to
right, each part before those within it, and does not look into a part that is at fault.  So
it fails with the fault of the first such part, and succeeds if there is none.
-/

namespace ApiAssembly

section Errors

variable {ε α β γ : Type}

def error? : Except ε α → Option ε
  | .error error => some error
  | .ok _ => none

theorem error?_eq_some_iff {result : Except ε α} {error : ε} :
    error? result = some error ↔ result = .error error := by
  cases result <;> simp [error?]

theorem error?_eq_none_iff {result : Except ε α} :
    error? result = none ↔ ∃ value, result = .ok value := by
  cases result <;> simp [error?]

theorem error?_map (change : α → β) (result : Except ε α) :
    error? (result.map change) = error? result := by
  cases result <;> rfl

/-- Of two steps the first one that fails decides. -/
theorem error?_both (first : Except ε α) (second : Except ε β) (combine : α → β → γ) :
    error? (do
      let left ← first
      let right ← second
      return combine left right) = (error? first).or (error? second) := by
  cases first with
  | error error => rfl
  | ok left => cases second <;> rfl

/-- The error of a traversal is that of its first step that fails. -/
theorem error?_mapM {convert : α → Except ε β} {fault? : α → Option ε} {items : List α}
    (each : ∀ item ∈ items, error? (convert item) = fault? item) :
    error? (items.mapM convert) = items.findSome? fault? := by
  induction items with
  | nil => rfl
  | cons item items ih =>
      rw [List.forall_mem_cons] at each
      rw [List.mapM_cons, error?_both, each.1, ih each.2, List.findSome?_cons]
      cases fault? item <;> rfl

end Errors

namespace TypeExpr

/-- The induction over the expressions within an expression. -/
@[elab_as_elim]
theorem induction_operands {holds : TypeExpr → Prop}
    (step : ∀ expression : TypeExpr, (∀ operand ∈ expression.operands, holds operand) →
      holds expression) (expression : TypeExpr) : holds expression :=
  step expression fun operand _member => induction_operands step operand
termination_by sizeOf expression
decreasing_by exact sizeOf_lt_of_mem_operands _member

/-- The error of an expression that has no schema whatever stands within it. -/
def fault? : TypeExpr → Option ConversionError
  | .unknown => some (.unsupportedKind "UNKNOWN")
  | .nullable _ => some (.unsupportedKind "NULLABLE")
  | .notNullable _ => some (.unsupportedKind "NOT_NULLABLE")
  | .optional _ => some (.unsupportedKind "OPTIONAL")
  | .variadic _ => some (.unsupportedKind "VARIADIC")
  | .generic subject [] => some (.unsupportedGeneric subject)
  | .generic subject (_ :: _) =>
    if NamesArray subject then none else some (.unsupportedGeneric subject)
  | _ => none

/-- The expressions that are converted for the sake of an expression that is not at fault. -/
def lookedInto (expression : TypeExpr) : List TypeExpr :=
  if expression.fault? = none then expression.considered else []

theorem considered_subset_operands (expression : TypeExpr) :
    expression.considered ⊆ expression.operands := by
  cases expression with
  | generic subject objects => exact List.take_subset 1 objects
  | _ => exact List.Subset.refl _

theorem lookedInto_subset_operands (expression : TypeExpr) :
    expression.lookedInto ⊆ expression.operands := by
  rw [lookedInto]
  split
  · exact expression.considered_subset_operands
  · exact List.nil_subset _

/-- The parts of an expression that are looked at, from left to right and each one before those
within it. -/
def visits (expression : TypeExpr) : List TypeExpr :=
  expression :: expression.lookedInto.attach.flatMap fun ⟨operand, _member⟩ => operand.visits
termination_by sizeOf expression
decreasing_by exact sizeOf_lt_of_mem_operands (expression.lookedInto_subset_operands _member)

theorem visits_eq (expression : TypeExpr) :
    expression.visits = expression :: expression.lookedInto.flatMap visits := by
  have attached : expression.lookedInto.attach.flatMap (fun operand => operand.1.visits) =
      expression.lookedInto.flatMap visits := by
    rw [← List.flatMap_map, List.attach_map_subtype_val]
  rw [visits, ← attached]

def firstFault? (expression : TypeExpr) : Option ConversionError :=
  expression.visits.findSome? fault?

theorem findSome?_flatMap_visits (expressions : List TypeExpr) :
    (expressions.flatMap visits).findSome? fault? = expressions.findSome? firstFault? := by
  induction expressions with
  | nil => rfl
  | cons expression expressions ih =>
      rw [List.flatMap_cons, List.findSome?_append, ih, List.findSome?_cons, firstFault?]
      cases expression.visits.findSome? fault? <;> rfl

/-- An expression at fault is the first one with a fault. -/
theorem firstFault?_of_fault? {expression : TypeExpr} {error : ConversionError}
    (fault : expression.fault? = some error) : expression.firstFault? = some error := by
  rw [firstFault?, visits_eq, List.findSome?_cons, fault]

/-- An expression that is not at fault passes on the first fault of those within it. -/
theorem firstFault?_of_sound {expression : TypeExpr} (sound : expression.fault? = none) :
    expression.firstFault? = expression.considered.findSome? firstFault? := by
  rw [firstFault?, visits_eq, List.findSome?_cons, sound, lookedInto, if_pos sound,
    findSome?_flatMap_visits]

theorem firstFault?_of_pair {expression left right : TypeExpr}
    (sound : expression.fault? = none) (pair : expression.considered = [left, right]) :
    expression.firstFault? = left.firstFault?.or right.firstFault? := by
  rw [firstFault?_of_sound sound, pair, List.findSome?_cons, List.findSome?_cons,
    List.findSome?_nil]
  cases left.firstFault? <;> cases right.firstFault? <;> rfl

/-- An expression that is converted like the one expression within it has its first fault. -/
theorem firstFault?_of_single {expression inner : TypeExpr}
    (sound : expression.fault? = none) (single : expression.considered = [inner]) :
    expression.firstFault? = inner.firstFault? := by
  rw [firstFault?_of_sound sound, single, List.findSome?_cons, List.findSome?_nil]
  cases inner.firstFault? <;> rfl

end TypeExpr

namespace Schema

variable {expression : TypeExpr}

/-- A chain of literals has no faults. -/
theorem firstFault?_of_stringLiterals? {literals : List String}
    (found : stringLiterals? expression = some literals) : expression.firstFault? = none := by
  fun_induction stringLiterals? expression generalizing literals with
  | case1 value => exact TypeExpr.firstFault?_of_sound rfl
  | case2 value right ih =>
      obtain ⟨rest, further, -⟩ := Option.map_eq_some_iff.mp found
      rw [TypeExpr.firstFault?_of_pair rfl rfl, ih further, TypeExpr.firstFault?_of_sound rfl]
      rfl
  | case3 => cases found

theorem firstFault?_of_numberLiterals? {literals : List Decimal.Binary64}
    (found : numberLiterals? expression = some literals) : expression.firstFault? = none := by
  fun_induction numberLiterals? expression generalizing literals with
  | case1 value => exact TypeExpr.firstFault?_of_sound rfl
  | case2 value right ih =>
      obtain ⟨rest, further, -⟩ := Option.map_eq_some_iff.mp found
      rw [TypeExpr.firstFault?_of_pair rfl rfl, ih further, TypeExpr.firstFault?_of_sound rfl]
      rfl
  | case3 => cases found

/-- An expression fails to be converted with its first fault, alone and as the rest of a
chain. -/
structure FailsFirst (expression : TypeExpr) : Prop where
  whole : error? (ofTypeExpr expression) = expression.firstFault?
  alternatives : error? (ofAlternatives expression) = expression.firstFault?
  parts : error? (ofParts expression) = expression.firstFault?

variable (below : ∀ operand ∈ expression.operands, FailsFirst operand)

include below

theorem error?_ofTypeExpr : error? (ofTypeExpr expression) = expression.firstFault? := by
  cases expression with
  | name | number | string | any =>
      rw [ofTypeExpr, TypeExpr.firstFault?_of_sound rfl]
      rfl
  | union left right =>
      rw [ofTypeExpr]
      split
      next strings => exact (firstFault?_of_stringLiterals? strings).symm
      next numbers => exact (firstFault?_of_numberLiterals? numbers).symm
      · rw [error?_both, (below left List.mem_cons_self).whole,
          (below right (List.mem_cons_of_mem _ List.mem_cons_self)).alternatives]
        exact (TypeExpr.firstFault?_of_pair rfl rfl).symm
  | intersection left right =>
      rw [ofTypeExpr, error?_both, (below left List.mem_cons_self).whole,
        (below right (List.mem_cons_of_mem _ List.mem_cons_self)).parts]
      exact (TypeExpr.firstFault?_of_pair rfl rfl).symm
  | parenthesis inner =>
      rw [ofTypeExpr, (below inner List.mem_cons_self).whole]
      exact (TypeExpr.firstFault?_of_single rfl rfl).symm
  | record entries =>
      rw [ofTypeExpr_record, error?_map, TypeExpr.firstFault?_of_sound rfl]
      exact error?_mapM fun value member => (below value member).whole
  | generic subject objects =>
      cases objects with
      | nil =>
          rw [TypeExpr.firstFault?_of_fault? rfl]
          simp only [ofTypeExpr, ite_self]
          rfl
      | cons element others =>
          by_cases isArray : isArrayName subject = true
          · have sound : (TypeExpr.generic subject (element :: others)).fault? = none :=
              if_pos (TypeExpr.isArrayName_iff.mp isArray)
            simp only [ofTypeExpr, if_pos isArray]
            rw [error?_map, (below element List.mem_cons_self).whole]
            exact (TypeExpr.firstFault?_of_single sound rfl).symm
          · have fault : (TypeExpr.generic subject (element :: others)).fault? =
                some (.unsupportedGeneric subject) :=
              if_neg (mt TypeExpr.isArrayName_iff.mpr isArray)
            rw [TypeExpr.firstFault?_of_fault? fault]
            simp only [ofTypeExpr, if_neg isArray]
            rfl
  | unknown | nullable | notNullable | optional | variadic =>
      rw [ofTypeExpr, TypeExpr.firstFault?_of_fault? rfl]
      rfl

theorem error?_ofAlternatives : error? (ofAlternatives expression) = expression.firstFault? := by
  have whole := error?_ofTypeExpr below
  unfold ofAlternatives
  split
  next left right =>
    rw [error?_both, (below left List.mem_cons_self).whole,
      (below right (List.mem_cons_of_mem _ List.mem_cons_self)).alternatives]
    exact (TypeExpr.firstFault?_of_pair rfl rfl).symm
  · rw [error?_map, whole]

theorem error?_ofParts : error? (ofParts expression) = expression.firstFault? := by
  have whole := error?_ofTypeExpr below
  unfold ofParts
  split
  next left right =>
    rw [error?_both, (below left List.mem_cons_self).whole,
      (below right (List.mem_cons_of_mem _ List.mem_cons_self)).parts]
    exact (TypeExpr.firstFault?_of_pair rfl rfl).symm
  · rw [error?_map, whole]

omit below

theorem failsFirst (expression : TypeExpr) : FailsFirst expression :=
  TypeExpr.induction_operands (fun _ below =>
    ⟨error?_ofTypeExpr below, error?_ofAlternatives below, error?_ofParts below⟩) expression

/-- A conversion fails with the error of the first part at fault among those that are looked at,
which are listed from left to right, each before those within it; and it fails only if there
is such a part. -/
theorem ofTypeExpr_eq_error_iff (expression : TypeExpr) :
    (∀ error, ofTypeExpr expression = .error error ↔
      ∃ front part back, expression.visits = front ++ part :: back ∧
        part.fault? = some error ∧ ∀ earlier ∈ front, earlier.fault? = none) ∧
    ((∃ schema, ofTypeExpr expression = .ok schema) ↔
      ∀ part ∈ expression.visits, part.fault? = none) := by
  have first := (failsFirst expression).whole
  constructor
  · intro error
    rw [← error?_eq_some_iff, first, TypeExpr.firstFault?, List.findSome?_eq_some_iff]
  · rw [← error?_eq_none_iff, first, TypeExpr.firstFault?, List.findSome?_eq_none_iff]

end Schema

end ApiAssembly
