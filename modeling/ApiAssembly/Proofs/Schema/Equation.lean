import ApiAssembly.Proofs.Schema.Enumeration

/-!
# Equations of the conversion

The expressions of a chain are converted one after the other, up to the first that has no
schema.  So the schema of a chain, or the error in its place, is known from the traversal of
its expressions, unless all of them are literals of one kind; and the schemas of a record's
entries come from a traversal too.
-/

namespace ApiAssembly

open Decimal (Binary64)

/-- A traversal succeeds with the results of its steps. -/
theorem mapM_eq_ok_iff {ε α β : Type} {convert : α → Except ε β} {items : List α}
    {results : List β} :
    items.mapM convert = .ok results ↔
      List.Forall₂ (fun item result => convert item = .ok result) items results := by
  induction items generalizing results with
  | nil =>
      rw [List.mapM_nil, List.forall₂_nil_left_iff]
      exact ⟨fun same => (Except.ok.inj same).symm, fun same => congrArg Except.ok same.symm⟩
  | cons item items ih =>
      rw [List.mapM_cons, List.forall₂_cons_left_iff]
      constructor
      · intro success
        obtain ⟨result, first, further⟩ := exists_of_bind_eq_ok success
        obtain ⟨others, rest, whole⟩ := exists_of_bind_eq_ok further
        exact ⟨result, others, first, ih.mp rest, (Except.ok.inj whole).symm⟩
      · rintro ⟨result, others, first, rest, rfl⟩
        rw [first, ih.mpr rest]
        rfl

namespace Schema

theorem ofAlternatives_eq_mapM (expression : TypeExpr) :
    ofAlternatives expression = expression.alternatives.mapM ofTypeExpr := by
  fun_induction TypeExpr.alternatives expression with
  | case1 left right ih => rw [ofAlternatives, ih, List.mapM_cons]
  | case2 other noUnion =>
      rw [ofAlternatives, List.mapM_cons, List.mapM_nil]
      · cases ofTypeExpr other <;> rfl
      · exact noUnion

theorem ofParts_eq_mapM (expression : TypeExpr) :
    ofParts expression = expression.conjuncts.mapM ofTypeExpr := by
  fun_induction TypeExpr.conjuncts expression with
  | case1 left right ih => rw [ofParts, ih, List.mapM_cons]
  | case2 other noIntersection =>
      rw [ofParts, List.mapM_cons, List.mapM_nil]
      · cases ofTypeExpr other <;> rfl
      · exact noIntersection

theorem stringLiterals?_of_alternatives {expression : TypeExpr} {literals : List String}
    (chain : expression.alternatives = literals.map .string) :
    stringLiterals? expression = some literals := by
  fun_induction TypeExpr.alternatives expression generalizing literals with
  | case1 left right ih =>
      obtain ⟨value, rest, rfl, rfl, later⟩ := List.map_eq_cons_iff.mp chain.symm
      rw [stringLiterals?, ih later.symm]
      rfl
  | case2 other =>
      obtain ⟨value, rest, rfl, rfl, later⟩ := List.map_eq_cons_iff.mp chain.symm
      obtain rfl := List.map_eq_nil_iff.mp later
      rfl

theorem numberLiterals?_of_alternatives {expression : TypeExpr} {literals : List Binary64}
    (chain : expression.alternatives = literals.map .number) :
    numberLiterals? expression = some literals := by
  fun_induction TypeExpr.alternatives expression generalizing literals with
  | case1 left right ih =>
      obtain ⟨value, rest, rfl, rfl, later⟩ := List.map_eq_cons_iff.mp chain.symm
      rw [numberLiterals?, ih later.symm]
      rfl
  | case2 other =>
      obtain ⟨value, rest, rfl, rfl, later⟩ := List.map_eq_cons_iff.mp chain.symm
      obtain rfl := List.map_eq_nil_iff.mp later
      rfl

theorem ofName_cases (name : String) :
    (∃ typeName, ofName name = ofType typeName) ∨ ofName name = referenceTo name := by
  simp only [ofName]
  split
  · exact .inl ⟨_, rfl⟩
  · split
    · exact .inl ⟨_, rfl⟩
    · exact .inr rfl

variable {left right : TypeExpr}

theorem ofTypeExpr_union_of_strings {literals : List String}
    (chain : (TypeExpr.union left right).alternatives = literals.map .string) :
    ofTypeExpr (.union left right) = .ok (ofStrings literals) := by
  rw [ofTypeExpr, stringLiterals?_of_alternatives chain]

theorem ofTypeExpr_union_of_numbers {literals : List Binary64}
    (chain : (TypeExpr.union left right).alternatives = literals.map .number) :
    ofTypeExpr (.union left right) = .ok (ofNumbers literals) := by
  have noStrings : stringLiterals? (.union left right) = none := by
    rw [Option.eq_none_iff_forall_ne_some]
    intro others found
    have first := (alternatives_of_stringLiterals? found).symm.trans chain
    cases others <;> cases literals <;> cases first
    cases chain
  rw [ofTypeExpr, noStrings, numberLiterals?_of_alternatives chain]

/-- Alternatives that are not all literals of one kind are converted one by one. -/
theorem ofTypeExpr_union_of_mixed
    (noStrings : ∀ literals : List String,
      (TypeExpr.union left right).alternatives ≠ literals.map .string)
    (noNumbers : ∀ literals : List Binary64,
      (TypeExpr.union left right).alternatives ≠ literals.map .number) :
    ofTypeExpr (.union left right) =
      ((TypeExpr.union left right).alternatives.mapM ofTypeExpr).map
        fun schemas => { oneOf := schemas } := by
  have stringsNone : stringLiterals? (.union left right) = none :=
    Option.eq_none_iff_forall_ne_some.mpr fun literals found =>
      noStrings literals (alternatives_of_stringLiterals? found)
  have numbersNone : numberLiterals? (.union left right) = none :=
    Option.eq_none_iff_forall_ne_some.mpr fun literals found =>
      noNumbers literals (alternatives_of_numberLiterals? found)
  rw [ofTypeExpr, stringsNone, numbersNone, TypeExpr.alternatives, List.mapM_cons,
    ← ofAlternatives_eq_mapM]
  cases ofTypeExpr left with
  | error error => rfl
  | ok first => cases ofAlternatives right <;> rfl

theorem ofTypeExpr_intersection :
    ofTypeExpr (.intersection left right) =
      ((TypeExpr.intersection left right).conjuncts.mapM ofTypeExpr).map
        fun schemas => { typeName := some "object", allOf := schemas } := by
  rw [ofTypeExpr, TypeExpr.conjuncts, List.mapM_cons, ← ofParts_eq_mapM]
  cases ofTypeExpr left with
  | error error => rfl
  | ok first => cases ofParts right <;> rfl

theorem ofEntries_eq_mapM (properties : Entries Schema) (entries : List (String × TypeExpr)) :
    ofEntries properties entries = ((entries.map Prod.snd).mapM ofTypeExpr).map
      fun schemas => Entries.putAll ((entries.map Prod.fst).zip schemas) properties := by
  induction entries generalizing properties with
  | nil =>
      rw [ofEntries]
      rfl
  | cons entry entries ih =>
      obtain ⟨key, expression⟩ := entry
      rw [ofEntries]
      simp only [List.map_cons, List.mapM_cons]
      cases ofTypeExpr expression with
      | error error => rfl
      | ok schema =>
          change ofEntries (Entries.put key schema properties) entries = _
          rw [ih]
          cases (entries.map Prod.snd).mapM ofTypeExpr <;> rfl

theorem ofTypeExpr_record (entries : List (String × TypeExpr)) :
    ofTypeExpr (.record entries) = ((entries.map Prod.snd).mapM ofTypeExpr).map
      fun schemas =>
        { typeName := some "object",
          properties := some (Entries.putAll ((entries.map Prod.fst).zip schemas) []) } := by
  rw [ofTypeExpr, ofEntries_eq_mapM]
  cases (entries.map Prod.snd).mapM ofTypeExpr <;> rfl

/-- The conversions of expressions one by one. -/
abbrev Convert (expressions : List TypeExpr) (schemas : List Schema) : Prop :=
  List.Forall₂ (fun expression schema => ofTypeExpr expression = .ok schema) expressions schemas

theorem exists_of_ofTypeExpr_union {schema : Schema}
    (converts : ofTypeExpr (.union left right) = .ok schema) :
    (∃ literals, schema = ofStrings literals) ∨ (∃ literals, schema = ofNumbers literals) ∨
      ∃ schemas, Convert (TypeExpr.union left right).alternatives schemas ∧
        schema = { oneOf := schemas } := by
  by_cases strings : ∃ literals : List String,
      (TypeExpr.union left right).alternatives = literals.map .string
  · obtain ⟨literals, chain⟩ := strings
    rw [ofTypeExpr_union_of_strings chain] at converts
    exact .inl ⟨literals, (Except.ok.inj converts).symm⟩
  by_cases numbers : ∃ literals : List Binary64,
      (TypeExpr.union left right).alternatives = literals.map .number
  · obtain ⟨literals, chain⟩ := numbers
    rw [ofTypeExpr_union_of_numbers chain] at converts
    exact .inr (.inl ⟨literals, (Except.ok.inj converts).symm⟩)
  · rw [ofTypeExpr_union_of_mixed (not_exists.mp strings) (not_exists.mp numbers)] at converts
    obtain ⟨schemas, each, rfl⟩ := exists_of_map_eq_ok converts
    exact .inr (.inr ⟨schemas, mapM_eq_ok_iff.mp each, rfl⟩)

theorem ofText_of_parse {text : String} {expression : TypeExpr}
    (parsed : TypeExpr.parse text = .ok expression) : ofText text = ofTypeExpr expression := by
  rw [ofText, parsed]

end Schema

end ApiAssembly
